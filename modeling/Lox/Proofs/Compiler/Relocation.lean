import Lox.Proofs.Bytecode.Likeness
import Lox.Proofs.Compiler.Verification

/-!
# A phrase compiled in two places

The same phrase is compiled twice, at the end of two scripts that differ in what came before.  The
pools of the two scripts differ, and so do the operands that point into them; what these point at is
the same, and so is everything else (`Expr.Emits.alike`, `Stmt.Emits.alike`).  A function that is
declared in the phrase has pools of its own, which do not differ, so that its code is the same up to
source lines (`like_prototypeOf`).
-/

namespace Lox

namespace Compiler

open FunctionScope

/-! ## Functions and their code -/

/-- The same local.  The callee stays where it is, so that it does not matter if it is captured. -/
structure Local.Alike (l l' : Local) : Prop where
  name : l'.name = l.name
  depth : l'.depth = l.depth
  captured : l.depth ≠ some 0 → l'.captured = l.captured

/-- The same function under compilation.  If it is a script, its pools are left open. -/
structure FunctionScope.Alike (f f' : FunctionScope) : Prop where
  kind : f'.kind = f.kind
  name : f'.name = f.name
  arity : f'.arity = f.arity
  locals : List.Forall₂ Local.Alike f.locals f'.locals
  captures : f'.captures = f.captures
  depth : f'.depth = f.depth
  chunk : f.kind = .function → f.chunk.Alike f'.chunk
  constants : f.chunk.constants.Indexed ∧ f'.chunk.constants.Indexed
  strings : f.chunk.strings.Indexed ∧ f'.chunk.strings.Indexed

/-- The instructions are the same in the finished chunks of the two functions.  In a declared
function they do not even differ in the operands. -/
structure Instruction.AlikeIn (f f' : FunctionScope) (i i' : Instruction) : Prop where
  opcode : i'.opcode = i.opcode
  declared : f.kind = .function → i' = i
  script : f.kind = .script → ∀ {w w' : Chunk} {u u' : Nat}, f.Fits w u → f'.Fits w' u' →
    i.Matches Chunk.Alike w w' i'

/-- The same instructions one by one, up to source lines. -/
def Code.AlikeIn (f f' : FunctionScope) (c c' : Code) : Prop :=
  List.Forall₂ (fun x x' => Instruction.AlikeIn f f' x.1 x'.1) c c'

lemma Local.Alike.refl (l : Local) : l.Alike l :=
  ⟨rfl, rfl, fun _ => rfl⟩

section Code

variable {f f' h h' : FunctionScope} {c c' d d' : Code} {i i' : Instruction} {line line' : UInt32}

lemma Instruction.AlikeIn.widens (hi : AlikeIn f f' i i') (hf : f.Widens h) (hf' : f'.Widens h') :
    AlikeIn h h' i i' where
  opcode := hi.opcode
  declared := fun hkind => hi.declared (hf.kind ▸ hkind)
  script := fun hkind _ _ _ _ hfits hfits' =>
    hi.script (hf.kind ▸ hkind) (hf.fits hfits) (hf'.fits hfits')

/-- An instruction that refers to no pool. -/
lemma Instruction.alikeIn_of_matches (hi : ∀ w w', i.Matches Chunk.Alike w w' i) :
    AlikeIn f f' i i where
  opcode := rfl
  declared := fun _ => rfl
  script := fun _ w w' _ _ _ _ => hi w w'

namespace Code.AlikeIn

lemma widens (hc : AlikeIn f f' c c') (hf : f.Widens h) (hf' : f'.Widens h') : AlikeIn h h' c c' :=
  hc.imp fun _ _ hi => hi.widens hf hf'

lemma append (hc : AlikeIn f f' c c') (hd : AlikeIn f f' d d') : AlikeIn f f' (c ++ d) (c' ++ d') :=
  List.rel_append hc hd

lemma size_eq (hc : AlikeIn f f' c c') : c'.size = c.size := by
  induction hc with
  | nil => rfl
  | cons hi _ ih => rw [Code.size_cons, Code.size_cons, ih, Instruction.size, Instruction.size, hi.opcode]

lemma bytes_eq (hc : AlikeIn f f' c c') (hkind : f.kind = .function) : c'.bytes = c.bytes := by
  induction hc with
  | nil => rfl
  | cons hi _ ih => rw [Code.bytes_cons, Code.bytes_cons, ih, hi.declared hkind]

end Code.AlikeIn

lemma alikeIn_nil : Code.AlikeIn f f' [] [] :=
  .nil

lemma alikeIn_cons (hi : Instruction.AlikeIn f f' i i') (hc : Code.AlikeIn f f' c c') :
    Code.AlikeIn f f' ((i, line) :: c) ((i', line') :: c') :=
  .cons hi hc

lemma alikeIn_singleton (hi : Instruction.AlikeIn f f' i i') :
    Code.AlikeIn f f' [(i, line)] [(i', line')] :=
  alikeIn_cons hi alikeIn_nil

/-- An instruction without operand. -/
lemma alikeIn_plain {op : Opcode} (hwidth : op.operandWidth = 0) :
    Instruction.AlikeIn f f' ⟨op, 0⟩ ⟨op, 0⟩ := by
  refine Instruction.alikeIn_of_matches fun w w' => ⟨rfl, ?_⟩
  cases op <;> first | rfl | cases hwidth

/-- A jump. -/
lemma alikeIn_jump {op : Opcode} {k k' : Nat} (hop : op = .jump ∨ op = .jumpIfFalse ∨ op = .loop)
    (hk : k' = k) : Instruction.AlikeIn f f' ⟨op, k⟩ ⟨op, k'⟩ := by
  subst hk
  rcases hop with rfl | rfl | rfl <;> exact Instruction.alikeIn_of_matches fun w w' => ⟨rfl, rfl⟩

end Code

/-! ## Chunks -/

lemma functions_size_eq {w w' : Chunk} (h : w.Alike w') : w'.functions.size = w.functions.size := by
  have hiff : ∀ i, i < w'.functions.size ↔ i < w.functions.size := fun i => by
    have hsome := isSome_of_optionRel (h.functions i)
    rwa [Bool.eq_iff_iff, isSome_getElem?, isSome_getElem?] at hsome
  have hle := hiff w.functions.size
  have hge := hiff w'.functions.size
  omega

/-- Chunks to which the same number is added stay alike. -/
lemma alike_addConstant {w w' : Chunk} (h : w.Alike w') (bits : UInt64) :
    (w'.addConstant bits).1 = (w.addConstant bits).1 ∧
      (w.addConstant bits).2.Alike (w'.addConstant bits).2 := by
  have hbytes := Likeness.upToLines.bytes h
  have hconstants := Likeness.upToLines.constants h
  have hstrings := Likeness.upToLines.strings h
  refine ⟨congrArg (fun p => (Pool.add p bits).1) hconstants,
    .of_functions hbytes ?_ hstrings h.functions⟩
  exact congrArg (fun p => (Pool.add p bits).2) hconstants

lemma alike_addString {w w' : Chunk} (h : w.Alike w') (t : Text) :
    (w'.addString t).1 = (w.addString t).1 ∧ (w.addString t).2.Alike (w'.addString t).2 := by
  have hbytes := Likeness.upToLines.bytes h
  have hconstants := Likeness.upToLines.constants h
  have hstrings := Likeness.upToLines.strings h
  refine ⟨congrArg (fun p => (Pool.add p t).1) hstrings,
    .of_functions hbytes hconstants ?_ h.functions⟩
  exact congrArg (fun p => (Pool.add p t).2) hstrings

lemma alike_addFunction {w w' : Chunk} (h : w.Alike w') {p p' : Prototype}
    (hp : p.Like Chunk.Alike p') : (w.addFunction p).2.Alike (w'.addFunction p').2 := by
  have hbytes := Likeness.upToLines.bytes h
  have hconstants := Likeness.upToLines.constants h
  have hstrings := Likeness.upToLines.strings h
  refine .of_functions hbytes hconstants hstrings fun i => ?_
  simp only [Chunk.addFunction, Array.getElem?_push, functions_size_eq h]
  split
  · exact .some hp
  · exact h.functions i

/-- The finished function is the same if its code is. -/
lemma like_prototypeOf {f f' : FunctionScope} (h : f.Alike f') (hkind : f.kind = .function)
    {c c' : Code} (hc : Code.AlikeIn f f' c c') (line line' : UInt32) :
    (f.prototypeOf c line).Like Chunk.Alike (f'.prototypeOf c' line') := by
  have hchunk := h.chunk hkind
  have hconstants := Likeness.upToLines.constants hchunk
  have hstrings := Likeness.upToLines.strings hchunk
  refine ⟨?_, congrArg Int.ofNat h.arity, h.captures, .some ?_⟩
  · simp only [prototypeOf, toPrototype, h.kind, h.name]
  · refine .of_functions ?_ hconstants hstrings hchunk.functions
    simp only [Chunk.append, Code.bytes_append, hc.bytes_eq hkind, Likeness.upToLines.bytes hchunk]
    rfl

/-! ## Contexts -/

namespace Context

/-- The same functions under compilation, but for the pools of a script. -/
structure Alike (g g' : Context) : Prop where
  scope : g.scope.Alike g'.scope
  enclosing : List.Forall₂ FunctionScope.Alike g.enclosing g'.enclosing

variable {g g' k k' : Context}

lemma Alike.addConstant (h : g.Alike g') (bits : UInt64) :
    (g.addConstant bits).2.Alike (g'.addConstant bits).2 ∧
      Instruction.AlikeIn (g.addConstant bits).2.scope (g'.addConstant bits).2.scope
        ⟨.loadConstant, (g.addConstant bits).1⟩ ⟨.loadConstant, (g'.addConstant bits).1⟩ := by
  obtain ⟨⟨hkind, hname, harity, hlocals, hcaptures, hdepth, hchunk, hconstants, hstrings⟩, henclosing⟩ := h
  refine ⟨⟨⟨hkind, hname, harity, hlocals, hcaptures, hdepth,
    fun hf => (alike_addConstant (hchunk hf) bits).2, ?_, hstrings⟩, henclosing⟩, rfl, fun hf => ?_,
    fun _ _ _ _ _ hfits hfits' => ⟨rfl, ?_⟩⟩
  · exact ⟨hconstants.1.add bits, hconstants.2.add bits⟩
  · exact congrArg (Instruction.mk .loadConstant) (alike_addConstant (hchunk hf) bits).1
  · exact (Pool.get?_of_prefix hfits'.constants (Pool.get?_add hconstants.2 bits)).trans
      (Pool.get?_of_prefix hfits.constants (Pool.get?_add hconstants.1 bits)).symm

lemma Alike.addString (h : g.Alike g') (t : Text) :
    (g.addString t).2.Alike (g'.addString t).2 ∧
      ∀ op, op = .loadString ∨ op = .defineGlobal ∨ op = .getGlobal ∨ op = .setGlobal →
        Instruction.AlikeIn (g.addString t).2.scope (g'.addString t).2.scope
          ⟨op, (g.addString t).1⟩ ⟨op, (g'.addString t).1⟩ := by
  obtain ⟨⟨hkind, hname, harity, hlocals, hcaptures, hdepth, hchunk, hconstants, hstrings⟩, henclosing⟩ := h
  refine ⟨⟨⟨hkind, hname, harity, hlocals, hcaptures, hdepth,
    fun hf => (alike_addString (hchunk hf) t).2, hconstants, ?_⟩, henclosing⟩, fun op hop =>
    ⟨rfl, fun hf => ?_, fun _ w w' _ _ hfits hfits' => ⟨rfl, ?_⟩⟩⟩
  · exact ⟨hstrings.1.add t, hstrings.2.add t⟩
  · exact congrArg (Instruction.mk op) (alike_addString (hchunk hf) t).1
  · have hsame : w'.strings.get? (g'.addString t).1 = w.strings.get? (g.addString t).1 :=
      (Pool.get?_of_prefix hfits'.strings (Pool.get?_add hstrings.2 t)).trans
        (Pool.get?_of_prefix hfits.strings (Pool.get?_add hstrings.1 t)).symm
    rcases hop with rfl | rfl | rfl | rfl <;> exact hsame

lemma Alike.addFunction (h : g.Alike g') {p p' : Prototype} (hp : p.Like Chunk.Alike p') :
    (g.addFunction p).2.Alike (g'.addFunction p').2 ∧
      Instruction.AlikeIn (g.addFunction p).2.scope (g'.addFunction p').2.scope
        ⟨.closure, g.scope.chunk.functions.size⟩ ⟨.closure, g'.scope.chunk.functions.size⟩ := by
  obtain ⟨⟨hkind, hname, harity, hlocals, hcaptures, hdepth, hchunk, hconstants, hstrings⟩, henclosing⟩ := h
  refine ⟨⟨⟨hkind, hname, harity, hlocals, hcaptures, hdepth,
    fun hf => alike_addFunction (hchunk hf) hp, hconstants, hstrings⟩, henclosing⟩, rfl, fun hf => ?_,
    fun _ w w' _ _ hfits hfits' => ⟨rfl, ?_⟩⟩
  · exact congrArg (Instruction.mk .closure) (functions_size_eq (hchunk hf))
  · have hnew : ∀ {g : Context} {p : Prototype} {w : Chunk} {u : Nat},
        (g.addFunction p).2.scope.Fits w u → w.functions[g.scope.chunk.functions.size]? = some p := by
      intro g p w u hfits
      obtain ⟨more, hmore⟩ := hfits.functions
      rw [← Array.getElem?_toList, ← hmore]
      simp [Context.addFunction, mapChunk, Chunk.addFunction]
    show Option.Rel _ _ _
    rw [hnew hfits, hnew hfits']
    exact .some hp

/-! ## Variables -/

lemma alike_findLocal {ls ls' : List Local} (h : List.Forall₂ Local.Alike ls ls') (name : Text) :
    Option.Rel (fun r r' => r'.1 = r.1 ∧ r.2.Alike r'.2) (findLocal name ls) (findLocal name ls') := by
  induction h with
  | nil => exact .none
  | cons hl hrest ih =>
    rw [findLocal, findLocal, hl.name]
    split
    · exact .some ⟨hrest.length_eq.symm, hl⟩
    · exact ih

lemma alike_markCaptured {ls ls' : List Local} (h : List.Forall₂ Local.Alike ls ls') (slot : Nat) :
    List.Forall₂ Local.Alike (markCaptured slot ls) (markCaptured slot ls') := by
  induction h with
  | nil => exact .nil
  | cons hl hrest ih =>
    rw [markCaptured, markCaptured, hrest.length_eq]
    split
    · exact .cons ⟨hl.name, hl.depth, fun _ => rfl⟩ hrest
    · exact .cons hl ih

lemma alike_addCapture {f f' : FunctionScope} (h : f.Alike f') (c : Capture) :
    (f'.addCapture c).1 = (f.addCapture c).1 ∧ (f.addCapture c).2.1.Alike (f'.addCapture c).2.1 ∧
      (f'.addCapture c).2.2 = (f.addCapture c).2.2 := by
  rw [addCapture, addCapture, h.captures]
  split
  · exact ⟨rfl, h, rfl⟩
  · split
    · exact ⟨rfl, h, rfl⟩
    · exact ⟨rfl, { h with captures := rfl }, rfl⟩

/-- What is captured, and from where, is the same. -/
lemma alike_capture? {f f' : FunctionScope} {outer outer' : List FunctionScope} (h : f.Alike f')
    (houter : List.Forall₂ FunctionScope.Alike outer outer') (name : Text) :
    Option.Rel (fun r r' => r'.1 = r.1 ∧ r.2.1.Alike r'.2.1 ∧
      List.Forall₂ FunctionScope.Alike r.2.2.1 r'.2.2.1 ∧ r'.2.2.2 = r.2.2.2)
      (f.capture? name outer) (f'.capture? name outer') := by
  induction houter generalizing f f' with
  | nil => exact .none
  | @cons o o' rest rest' ho hrest ih =>
    have hfind := alike_findLocal ho.locals name
    rw [capture?, capture?]
    generalize findLocal name o.locals = found, findLocal name o'.locals = found' at hfind
    cases hfind with
    | @some found found' hl =>
      obtain ⟨slot, l⟩ := found
      obtain ⟨slot', l'⟩ := found'
      obtain ⟨rfl, hl⟩ := hl
      obtain ⟨hi, hf, herrors⟩ := alike_addCapture h { index := slot', isLocal := true }
      have hread : Local.readErrors l' = Local.readErrors l := by
        rw [Local.readErrors, Local.readErrors, hl.depth]
      exact .some ⟨hi, hf, .cons { ho with locals := alike_markCaptured ho.locals slot' } hrest,
        congrArg₂ (· ++ ·) hread herrors⟩
    | none =>
      have hrec := ih ho
      dsimp only
      generalize capture? name o rest = r, capture? name o' rest' = r' at hrec
      cases hrec with
      | none => exact .none
      | @some r r' hr =>
        obtain ⟨j, o₁, rest₁, before⟩ := r
        obtain ⟨j', o₁', rest₁', before'⟩ := r'
        obtain ⟨rfl, ho₁, hrest₁, rfl⟩ := hr
        obtain ⟨hi, hf, herrors⟩ := alike_addCapture h { index := j', isLocal := false }
        exact .some ⟨hi, hf, .cons ho₁ hrest₁, congrArg (_ ++ ·) herrors⟩

/-- A variable is reached the same way. -/
lemma Resolves.alike {name : Text} {a a' : Access} (h : g.Resolves name a k)
    (h' : g'.Resolves name a' k') (hg : g.Alike g') :
    k.Alike k' ∧ Instruction.AlikeIn k.scope k'.scope ⟨a.read, a.operand⟩ ⟨a'.read, a'.operand⟩ ∧
      Instruction.AlikeIn k.scope k'.scope ⟨a.write, a.operand⟩ ⟨a'.write, a'.operand⟩ := by
  have hlocal := alike_findLocal hg.scope.locals name
  have hcapture := alike_capture? hg.scope hg.enclosing name
  cases h with
  | ofLocal hfind _ =>
    rw [hfind] at hlocal
    cases h' with
    | ofLocal hfind' _ =>
      rw [hfind'] at hlocal
      cases hlocal with
      | some hl =>
        obtain ⟨rfl, -⟩ := hl
        exact ⟨hg, Instruction.alikeIn_of_matches fun _ _ => ⟨rfl, rfl⟩,
          Instruction.alikeIn_of_matches fun _ _ => ⟨rfl, rfl⟩⟩
    | ofCapture hfind' | ofGlobal hfind' =>
      rw [hfind'] at hlocal
      cases hlocal
  | ofCapture hfind hsome =>
    rw [hfind] at hlocal
    rw [hsome] at hcapture
    cases h' with
    | ofLocal hfind' _ =>
      rw [hfind'] at hlocal
      cases hlocal
    | ofCapture _ hsome' =>
      rw [hsome'] at hcapture
      cases hcapture with
      | some hr =>
        obtain ⟨rfl, hscope, henclosing, -⟩ := hr
        exact ⟨⟨hscope, henclosing⟩, Instruction.alikeIn_of_matches fun _ _ => ⟨rfl, rfl⟩,
          Instruction.alikeIn_of_matches fun _ _ => ⟨rfl, rfl⟩⟩
    | ofGlobal _ hnone' =>
      rw [hnone'] at hcapture
      cases hcapture
  | ofGlobal hfind hnone =>
    rw [hfind] at hlocal
    rw [hnone] at hcapture
    cases h' with
    | ofLocal hfind' _ =>
      rw [hfind'] at hlocal
      cases hlocal
    | ofCapture _ hsome' =>
      rw [hsome'] at hcapture
      cases hcapture
    | ofGlobal =>
      obtain ⟨halike, hinstruction⟩ := hg.addString name
      exact ⟨halike, hinstruction _ (by simp), hinstruction _ (by simp)⟩

lemma Alike.declare (h : g.Alike g') (name : Text) : (g.declare name).Alike (g'.declare name) :=
  ⟨{ h.scope with locals := .cons (.refl _) h.scope.locals }, h.enclosing⟩

/-- In a block the newest local is not the callee. -/
def Declared (g : Context) : Prop :=
  0 < g.scope.depth → ∃ l older, g.scope.locals = l :: older ∧ l.depth ≠ some 0

lemma Names.declared {name : Text} {global? : Option Nat} (h : g.Names name global? k) : k.Declared := by
  cases h with
  | ofLocal => exact fun _ => ⟨_, _, rfl, nofun⟩
  | ofGlobal hzero => exact fun hpos => absurd hzero (Nat.ne_of_gt hpos)

lemma Declared.grows (h : g.Declared) (hgrows : g.Grows k) : k.Declared := by
  intro hpos
  obtain ⟨l, older, hlocals, hl⟩ := h (hgrows.scope.depth ▸ hpos)
  obtain ⟨l', older', hgrowl, -, hlocals'⟩ :=
    List.forall₂_cons_left_iff.1 (hlocals ▸ hgrows.scope.locals)
  exact ⟨l', older', hlocals', hgrowl.depth ▸ hl⟩

lemma Declared.complete (h : g.Declared) : g.complete.Declared := by
  intro hpos
  rw [(widens_complete g).depth] at hpos
  obtain ⟨l, older, hlocals, -⟩ := h hpos
  refine ⟨_, older, complete_locals hpos hlocals, ?_⟩
  simpa using Nat.ne_of_gt hpos

lemma complete_of_locals_cons {l : Local} {older : List Local} (hpos : 0 < g.scope.depth)
    (hlocals : g.scope.locals = l :: older) :
    g.complete = { g with scope := { g.scope with
      locals := { l with depth := some g.scope.depth } :: older } } := by
  rw [Context.complete, hlocals]
  cases hd : g.scope.depth with
  | zero => omega
  | succ d => rfl

lemma Alike.complete (h : g.Alike g') (hdeclared : g.Declared) : g.complete.Alike g'.complete := by
  have hdepth := h.scope.depth
  rcases Nat.eq_zero_or_pos g.scope.depth with hzero | hpos
  · rwa [complete_of_depth_zero hzero, complete_of_depth_zero (hdepth.trans hzero)]
  · obtain ⟨l, older, hlocals, hl⟩ := hdeclared hpos
    have hpos' : 0 < g'.scope.depth := hdepth ▸ hpos
    obtain ⟨l', older', hlocal, holder, hlocals'⟩ :=
      List.forall₂_cons_left_iff.1 (hlocals ▸ h.scope.locals)
    rw [complete_of_locals_cons hpos hlocals, complete_of_locals_cons hpos' hlocals']
    refine ⟨{ h.scope with locals := .cons ⟨hlocal.name, ?_, fun _ => hlocal.captured hl⟩ holder },
      h.enclosing⟩
    exact congrArg some hdepth

lemma Names.alike {name : Text} {global? global?' : Option Nat} (h : g.Names name global? k)
    (h' : g'.Names name global?' k') (hg : g.Alike g') (line line' : UInt32) :
    k.Alike k' ∧ Code.AlikeIn k.scope k'.scope (defineCode global? line) (defineCode global?' line') := by
  have hdepth := hg.scope.depth
  cases h with
  | ofLocal hpos =>
    cases h' with
    | ofLocal => exact ⟨hg.declare name, alikeIn_nil⟩
    | ofGlobal hzero' => omega
  | ofGlobal hzero =>
    cases h' with
    | ofLocal hpos' => omega
    | ofGlobal =>
      obtain ⟨halike, hinstruction⟩ := hg.addString name
      exact ⟨halike, alikeIn_singleton (hinstruction _ (by simp))⟩

/-! ## Blocks and functions -/

lemma Alike.beginScope (h : g.Alike g') : g.beginScope.Alike g'.beginScope :=
  ⟨{ h.scope with depth := congrArg (· + 1) h.scope.depth }, h.enclosing⟩

/-- The same locals leave with a block. -/
lemma alike_span {f f' : FunctionScope} {ls ls' : List Local} {d : Nat} (hd : 0 < d)
    (h : List.Forall₂ Local.Alike ls ls') (line line' : UInt32) :
    List.Forall₂ Local.Alike (ls.span (Local.inBlock d)).2 (ls'.span (Local.inBlock d)).2 ∧
      Code.AlikeIn f f' (dropCode (ls.span (Local.inBlock d)).1 line)
        (dropCode (ls'.span (Local.inBlock d)).1 line') := by
  simp only [List.span_eq_takeWhile_dropWhile]
  induction h with
  | nil => exact ⟨.nil, alikeIn_nil⟩
  | @cons l l' ls ls' hl hrest ih =>
    have hblock : Local.inBlock d l' = Local.inBlock d l := by
      rw [Local.inBlock, Local.inBlock, hl.depth]
    by_cases hin : Local.inBlock d l
    · have hinner : l.depth ≠ some 0 := by
        intro hzero
        rw [Local.inBlock, hzero] at hin
        exact absurd (of_decide_eq_true hin) (Nat.not_le.2 hd)
      simp only [List.takeWhile_cons, List.dropWhile_cons, hblock, hin, if_true]
      refine ⟨ih.1, alikeIn_cons ?_ ih.2⟩
      rw [hl.captured hinner]
      exact alikeIn_plain (by split <;> rfl)
    · simp only [List.takeWhile_cons, List.dropWhile_cons, hblock, hin]
      exact ⟨.cons hl hrest, alikeIn_nil⟩

lemma Alike.endScope (h : g.Alike g') (hpos : 0 < g.scope.depth) (line line' : UInt32) :
    g.endScope.Alike g'.endScope ∧
      Code.AlikeIn g.scope g'.scope (dropCode g.leaving line) (dropCode g'.leaving line') := by
  rw [leaving, leaving, h.scope.depth]
  obtain ⟨hkept, hgone⟩ := alike_span hpos h.scope.locals line line'
  refine ⟨⟨{ h.scope with locals := ?_, depth := congrArg (· - 1) h.scope.depth }, h.enclosing⟩, hgone⟩
  rw [Context.endScope, Context.endScope, h.scope.depth]
  exact hkept

lemma Alike.enter (h : g.Alike g') (name : Text) : (g.enter name).Alike (g'.enter name) :=
  ⟨⟨rfl, rfl, rfl, List.forall₂_same.2 fun l _ => .refl l, rfl, rfl, fun _ => .refl _,
    ⟨Pool.indexed_empty, Pool.indexed_empty⟩, ⟨Pool.indexed_empty, Pool.indexed_empty⟩⟩,
    .cons h.scope h.enclosing⟩

lemma Alike.countParameter (h : g.Alike g') : g.countParameter.Alike g'.countParameter :=
  ⟨{ h.scope with arity := congrArg (· + 1) h.scope.arity }, h.enclosing⟩

lemma Takes.alike {ps : List Text} (h : g.Takes ps k) (h' : g'.Takes ps k') (hg : g.Alike g') :
    k.Alike k' := by
  induction h generalizing g' with
  | nil =>
    cases h'
    exact hg
  | cons _ _ _ ih =>
    cases h' with
    | cons _ _ hrest =>
      exact ih hrest ((hg.countParameter.declare _).complete fun _ => ⟨_, _, rfl, nofun⟩)

lemma Takes.kind {ps : List Text} (h : g.Takes ps k) : k.scope.kind = g.scope.kind := by
  induction h with
  | nil => rfl
  | cons _ _ _ ih => exact ih.trans (widens_complete _).scope.kind

end Context

end Compiler

open Compiler

/-! ## Expressions -/

/-- The code of expressions is the same, and leaves the same behind. -/
theorem Expr.Emits.alike {g g' k k' : Context} {es : List Expr} {c c' : Code} (h : Emits g es c k)
    (h' : Emits g' es c' k') (hg : g.Alike g') : k.Alike k' ∧ Code.AlikeIn k.scope k'.scope c c' := by
  induction h generalizing g' k' c' with
  | nil =>
    cases h'
    exact ⟨hg, alikeIn_nil⟩
  | cons _ hrest ih ih' =>
    cases h' with
    | cons hfirst' hrest' =>
      obtain ⟨hg₁, hc⟩ := ih hfirst' hg
      obtain ⟨hg₂, hd⟩ := ih' hrest' hg₁
      exact ⟨hg₂, (hc.widens hrest.grows.scope.toWidens hrest'.grows.scope.toWidens).append hd⟩
  | literal =>
    cases h' with
    | literal => exact ⟨hg, alikeIn_singleton (alikeIn_plain (Literal.operandWidth_opcode _))⟩
  | number hbits =>
    cases h' with
    | number hbits' =>
      rw [hbits, Option.some.injEq] at hbits'
      subst hbits'
      obtain ⟨hg₁, hi⟩ := hg.addConstant _
      exact ⟨hg₁, alikeIn_singleton hi⟩
  | string =>
    cases h' with
    | string =>
      obtain ⟨hg₁, hi⟩ := hg.addString _
      exact ⟨hg₁, alikeIn_singleton (hi _ (by simp))⟩
  | var hresolves =>
    cases h' with
    | var hresolves' =>
      obtain ⟨hg₁, hread, -⟩ := hresolves.alike hresolves' hg
      exact ⟨hg₁, alikeIn_singleton hread⟩
  | assign hresolves he ih =>
    cases h' with
    | assign hresolves' he' =>
      obtain ⟨hg₁, -, hwrite⟩ := hresolves.alike hresolves' hg
      obtain ⟨hg₂, hc⟩ := ih he' hg₁
      exact ⟨hg₂, hc.append (alikeIn_singleton
        (hwrite.widens he.grows.scope.toWidens he'.grows.scope.toWidens))⟩
  | unary _ ih =>
    cases h' with
    | unary he' =>
      obtain ⟨hg₁, hc⟩ := ih he' hg
      exact ⟨hg₁, hc.append (alikeIn_singleton (alikeIn_plain (UnaryOperator.operandWidth_opcode _)))⟩
  | binary _ hr ih ih' =>
    cases h' with
    | binary hl' hr' =>
      obtain ⟨hg₁, hc⟩ := ih hl' hg
      obtain ⟨hg₂, hd⟩ := ih' hr' hg₁
      have hc₂ := hc.widens hr.grows.scope.toWidens hr'.grows.scope.toWidens
      exact ⟨hg₂, (hc₂.append hd).append
        (alikeIn_singleton (alikeIn_plain (BinaryOperator.operandWidth_opcode _)))⟩
  | and _ hr _ ih ih' =>
    cases h' with
    | and hl' hr' =>
      obtain ⟨hg₁, hc⟩ := ih hl' hg
      obtain ⟨hg₂, hd⟩ := ih' hr' hg₁
      have hc₂ := hc.widens hr.grows.scope.toWidens hr'.grows.scope.toWidens
      exact ⟨hg₂, hc₂.append (alikeIn_cons (alikeIn_jump (by simp) (by rw [hd.size_eq]))
        (alikeIn_cons (alikeIn_plain rfl) hd))⟩
  | or _ hr _ ih ih' =>
    cases h' with
    | or hl' hr' =>
      obtain ⟨hg₁, hc⟩ := ih hl' hg
      obtain ⟨hg₂, hd⟩ := ih' hr' hg₁
      have hc₂ := hc.widens hr.grows.scope.toWidens hr'.grows.scope.toWidens
      exact ⟨hg₂, hc₂.append (alikeIn_cons (alikeIn_jump (by simp) rfl)
        (alikeIn_cons (alikeIn_jump (by simp) (by rw [hd.size_eq]))
          (alikeIn_cons (alikeIn_plain rfl) hd)))⟩
  | call _ _ ih =>
    cases h' with
    | call he' =>
      obtain ⟨hg₁, hc⟩ := ih he' hg
      exact ⟨hg₁, hc.append (alikeIn_singleton (Instruction.alikeIn_of_matches fun _ _ => ⟨rfl, rfl⟩))⟩

/-- The condition of a for loop, where what the jump out of the loop passes over has the same size. -/
lemma Expr.EmitsCondition.alike {g g' k k' : Context} {condition : Option Expr} {after after' : Nat}
    {c c' : Code} (h : EmitsCondition g condition after c k) (h' : EmitsCondition g' condition after' c' k')
    (hg : g.Alike g') : k.Alike k' ∧ c'.size = c.size ∧
      (after' = after → Code.AlikeIn k.scope k'.scope c c') := by
  cases h with
  | none =>
    cases h' with
    | none => exact ⟨hg, rfl, fun _ => alikeIn_nil⟩
  | some he =>
    cases h' with
    | some he' =>
      obtain ⟨hg₁, hc⟩ := he.alike he' hg
      refine ⟨hg₁, by simp [hc.size_eq], fun hafter => hc.append ?_⟩
      exact alikeIn_cons (alikeIn_jump (by simp) (by rw [hafter]))
        (alikeIn_singleton (alikeIn_plain rfl))

lemma Expr.EmitsIncrement.alike {g g' k k' : Context} {increment : Option Expr} {before : Nat}
    {c c' : Code} {back back' : Nat} (h : EmitsIncrement g increment before c k back)
    (h' : EmitsIncrement g' increment before c' k' back') (hg : g.Alike g') :
    k.Alike k' ∧ back' = back ∧ Code.AlikeIn k.scope k'.scope c c' := by
  cases h with
  | none =>
    cases h' with
    | none => exact ⟨hg, rfl, alikeIn_nil⟩
  | some he =>
    cases h' with
    | some he' =>
      obtain ⟨hg₁, hc⟩ := he.alike he' hg
      rw [hc.size_eq]
      exact ⟨hg₁, rfl, (alikeIn_cons (alikeIn_jump (by simp) rfl) hc).append
        (alikeIn_cons (alikeIn_plain rfl) (alikeIn_singleton (alikeIn_jump (by simp) rfl)))⟩

lemma alikeIn_exitCode {f f' : FunctionScope} (condition : Option Expr) (line line' : UInt32) :
    Code.AlikeIn f f' (exitCode condition line) (exitCode condition line') := by
  cases condition with
  | none => exact alikeIn_nil
  | some e => exact alikeIn_singleton (alikeIn_plain rfl)

/-! ## Statements -/

/-- The functions around a declared function grow while its body is compiled. -/
lemma Stmt.Emits.grows_outer {g k k' : Context} {name : Text} {ps : List Text} {body : Stmt} {c : Code}
    {outer : FunctionScope} {rest : List FunctionScope} (h : Emits k body c k')
    (htakes : (g.enter name).Takes ps k) (houter : k'.enclosing = outer :: rest) (p : Prototype) :
    g.Grows (Context.addFunction ⟨outer, rest⟩ p).2 := by
  have hgrow := h.widens.enclosing
  rw [htakes.enclosing, houter] at hgrow
  obtain ⟨hscope, hrest⟩ := List.forall₂_cons.1 hgrow
  have hsame : g.Grows ⟨outer, rest⟩ := ⟨hscope, hrest⟩
  exact hsame.trans (Context.grows_addFunction ⟨outer, rest⟩ p)

/-- The code of a statement is the same, and leaves the same behind. -/
theorem Stmt.Emits.alike {g g' k k' : Context} {s : Stmt} {c c' : Code} (h : Emits g s c k)
    (h' : Emits g' s c' k') (hg : g.Alike g') : k.Alike k' ∧ Code.AlikeIn k.scope k'.scope c c' := by
  induction h generalizing g' k' c' with
  | skip =>
    cases h'
    exact ⟨hg, alikeIn_nil⟩
  | seq _ hrest ih ih' =>
    cases h' with
    | seq hfirst' hrest' =>
      obtain ⟨hg₁, hc⟩ := ih hfirst' hg
      obtain ⟨hg₂, hd⟩ := ih' hrest' hg₁
      exact ⟨hg₂, (hc.widens hrest.widens.scope hrest'.widens.scope).append hd⟩
  | declareVar hnames he =>
    cases h' with
    | declareVar hnames' he' =>
      obtain ⟨hg₁, hdefine⟩ := hnames.alike hnames' hg _ _
      obtain ⟨hg₂, hc⟩ := he.alike he' hg₁
      refine ⟨hg₂.complete (hnames.declared.grows he.grows), (hc.append ?_).widens
        (Context.widens_complete _).scope (Context.widens_complete _).scope⟩
      exact hdefine.widens he.grows.scope.toWidens he'.grows.scope.toWidens
  | declareFun hnames htakes hbody houter _ ih =>
    cases h' with
    | declareFun hnames' htakes' hbody' houter' =>
      obtain ⟨hg₁, hdefine⟩ := hnames.alike hnames' hg _ _
      have hdeclared := hnames.declared
      have hg₂ := htakes.alike htakes' ((hg₁.complete hdeclared).enter _)
      obtain ⟨hg₃, hc⟩ := ih hbody' hg₂
      have hkind : _ = FunctionKind.function := hbody.widens.scope.kind.trans htakes.kind
      have hprototype := like_prototypeOf hg₃.scope hkind hc
      have henclosing := hg₃.enclosing
      rw [houter, houter'] at henclosing
      obtain ⟨hscope, hrest⟩ := List.forall₂_cons.1 henclosing
      have houtside : Context.Alike ⟨_, _⟩ ⟨_, _⟩ := ⟨hscope, hrest⟩
      obtain ⟨hg₄, hclosure⟩ := houtside.addFunction (hprototype _ _)
      refine ⟨hg₄.complete (hdeclared.complete.grows (hbody.grows_outer htakes houter _)),
        Code.AlikeIn.widens (alikeIn_cons hclosure (hdefine.widens ?_ ?_))
          (Context.widens_complete _).scope (Context.widens_complete _).scope⟩
      · exact (Context.widens_complete _).scope.trans
          (hbody.grows_outer htakes houter _).scope.toWidens
      · exact (Context.widens_complete _).scope.trans
          (hbody'.grows_outer htakes' houter' _).scope.toWidens
  | print he =>
    cases h' with
    | print he' =>
      obtain ⟨hg₁, hc⟩ := he.alike he' hg
      exact ⟨hg₁, hc.append (alikeIn_singleton (alikeIn_plain rfl))⟩
  | discard he =>
    cases h' with
    | discard he' =>
      obtain ⟨hg₁, hc⟩ := he.alike he' hg
      exact ⟨hg₁, hc.append (alikeIn_singleton (alikeIn_plain rfl))⟩
  | echo he =>
    cases h' with
    | echo he' =>
      obtain ⟨hg₁, hc⟩ := he.alike he' hg
      exact ⟨hg₁, hc.append (alikeIn_singleton (alikeIn_plain rfl))⟩
  | ret _ he =>
    cases h' with
    | ret _ he' =>
      obtain ⟨hg₁, hc⟩ := he.alike he' hg
      exact ⟨hg₁, hc.append (alikeIn_singleton (alikeIn_plain rfl))⟩
  | branch he hyes hno _ _ ih ih' =>
    cases h' with
    | branch he' hyes' hno' =>
      obtain ⟨hg₁, hc⟩ := he.alike he' hg
      obtain ⟨hg₂, hd⟩ := ih hyes' hg₁
      obtain ⟨hg₃, hd'⟩ := ih' hno' hg₂
      have hc₃ := hc.widens (hyes.widens.scope.trans hno.widens.scope)
        (hyes'.widens.scope.trans hno'.widens.scope)
      have hd₃ := hd.widens hno.widens.scope hno'.widens.scope
      refine ⟨hg₃, (hc₃.append ?_).append ?_⟩
      · exact alikeIn_cons (alikeIn_jump (by simp) (by rw [hd.size_eq]))
          (alikeIn_cons (alikeIn_plain rfl) hd₃)
      · exact alikeIn_cons (alikeIn_jump (by simp) (by rw [hd'.size_eq]))
          (alikeIn_cons (alikeIn_plain rfl) hd')
  | whileLoop he hbody _ _ ih =>
    cases h' with
    | whileLoop he' hbody' =>
      obtain ⟨hg₁, hc⟩ := he.alike he' hg
      obtain ⟨hg₂, hd⟩ := ih hbody' hg₁
      have hc₂ := hc.widens hbody.widens.scope hbody'.widens.scope
      refine ⟨hg₂, (hc₂.append ?_).append ?_⟩
      · exact alikeIn_cons (alikeIn_jump (by simp) (by rw [hd.size_eq]))
          (alikeIn_cons (alikeIn_plain rfl) hd)
      · exact alikeIn_cons (alikeIn_jump (by simp) (by rw [hc.size_eq, hd.size_eq]))
          (alikeIn_singleton (alikeIn_plain rfl))
  | forLoop hinit hcond hinc hbody _ ih ih' =>
    cases h' with
    | forLoop hinit' hcond' hinc' hbody' =>
      obtain ⟨hg₁, hc₁⟩ := ih hinit' hg.beginScope
      -- The jump out of the loop passes over code that is compiled later.
      obtain ⟨hg₂, hsize₂, hc₂⟩ := hcond.alike hcond' hg₁
      rw [hsize₂] at hinc'
      obtain ⟨hg₃, rfl, hc₃⟩ := hinc.alike hinc' hg₂
      obtain ⟨hg₄, hc₄⟩ := ih' hbody' hg₃
      replace hc₂ := hc₂ (by rw [hc₃.size_eq, hc₄.size_eq])
      have hw₃ := hbody.widens.scope
      have hw₃' := hbody'.widens.scope
      have hw₂ := hinc.grows.scope.toWidens.trans hw₃
      have hw₂' := hinc'.grows.scope.toWidens.trans hw₃'
      have hw₁ := hcond.grows.scope.toWidens.trans hw₂
      have hw₁' := hcond'.grows.scope.toWidens.trans hw₂'
      have hparts := (((hc₁.widens hw₁ hw₁').append (hc₂.widens hw₂ hw₂')).append
        (hc₃.widens hw₃ hw₃')).append hc₄
      have hdepth := hbody.widens.depth
      rw [hinc.grows.scope.depth, hcond.grows.scope.depth, hinit.widens.depth] at hdepth
      obtain ⟨hend, hdrop⟩ := hg₄.endScope (by rw [hdepth]; exact Nat.succ_pos _) _ _
      refine ⟨hend, ?_⟩
      rw [hc₄.size_eq]
      refine Code.AlikeIn.widens (.append (hparts.append ?_) hdrop) (.of_eq rfl rfl rfl rfl)
        (.of_eq rfl rfl rfl rfl)
      exact alikeIn_cons (alikeIn_jump (by simp) rfl) (alikeIn_exitCode _ _ _)
  | block hbody ih =>
    cases h' with
    | block hbody' =>
      obtain ⟨hg₁, hc⟩ := ih hbody' hg.beginScope
      obtain ⟨hend, hdrop⟩ := hg₁.endScope (by rw [hbody.widens.depth]; exact Nat.succ_pos _) _ _
      exact ⟨hend, (hc.append hdrop).widens (.of_eq rfl rfl rfl rfl) (.of_eq rfl rfl rfl rfl)⟩

end Lox
