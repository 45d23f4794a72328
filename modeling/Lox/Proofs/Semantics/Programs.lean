import Lox.Proofs.Grammar.Unambiguity
import Lox.Proofs.Semantics.Preservation
import Lox.Proofs.Session

/-!
# Programs without functions

The main theorem about the meaning of scripts.  A source without functions is compiled to a script
whose runs agree with the evaluation of the source's tree: one ends if and only if the other does,
and then both end the same way, with the same lines printed and the same globals
(`compile_preserves`).
-/

namespace Lox

open Compiler Machine

/-! ## Loading a script -/

namespace Heap

variable {h : Heap} {globals : Std.TreeMap ObjectId Value}

/-- Captured variables that leave the stack change no meaning of a global. -/
lemma Grounded.closeAll (hg : h.Grounded) (hi : h.IssuedGlobals globals) {us : List OpenUpvalue}
    (hus : ∀ u ∈ us, ∃ x, h.get? u.id = some (.upvalue x)) (value : OpenUpvalue → Value) :
    (us.foldl (fun h u => h.closeUpvalue u.id (value u)) h).Grounded ∧
      (us.foldl (fun h u => h.closeUpvalue u.id (value u)) h).IssuedGlobals globals ∧
      (us.foldl (fun h u => h.closeUpvalue u.id (value u)) h).environment globals =
        h.environment globals := by
  induction us generalizing h with
  | nil => exact ⟨hg, hi, rfl⟩
  | cons u us ih =>
    have hu := hus u List.mem_cons_self
    have halike := alike_closeUpvalue hu (value u)
    have hrest : ∀ u' ∈ us, ∃ x, (h.closeUpvalue u.id (value u)).get? u'.id = some (.upvalue x) := by
      intro u' hu'
      obtain ⟨x, hx⟩ := hus u' (List.mem_cons_of_mem u hu')
      rcases halike u'.id with heq | ⟨-, hupvalue⟩
      · exact ⟨x, heq.trans hx⟩
      · exact hupvalue
    obtain ⟨hg', hi', henvironment⟩ := ih (hg.closeUpvalue hu (value u))
      (IssuedGlobals.mono hi (Nat.le_refl _)) hrest
    exact ⟨hg', hi', henvironment.trans (hg.environment_eq hi rfl fun i _ => halike i)⟩

/-- A new object that is not a string changes no meaning of a global. -/
lemma Grounded.environment_allocate (hg : h.Grounded) (hi : h.IssuedGlobals globals) (o : Object) :
    (h.allocate o).2.environment globals = h.environment globals :=
  hg.environment_eq hi (strings_allocate h o) fun _ hlt => alike_allocate h o hlt

end Heap

namespace Machine

variable {m : Machine} {natives : Natives} {p : Prototype} {w : Chunk}

lemma Grounded.resetStack (hm : m.Grounded) : m.resetStack.heap.Grounded ∧
    m.resetStack.heap.IssuedGlobals m.globals ∧ m.resetStack.environment = m.environment := by
  have hclosing : ∀ u ∈ (m.openUpvalues.span fun u => decide (0 ≤ u.slot)).1,
      ∃ x, m.heap.get? u.id = some (.upvalue x) := by
    intro u hu
    rw [List.span_eq_takeWhile_dropWhile] at hu
    exact hm.opened u ((List.takeWhile_sublist _).subset hu)
  exact hm.heap.closeAll hm.globals hclosing fun u => m.stack.getD u.slot .nil

/-- The machine at the beginning of a script. -/
def started (m : Machine) (p : Prototype) (w : Chunk) : Machine :=
  { m.loaded p with frames := #[⟨m.scriptId, p.name, w, 0, 0⟩] }

/-- A script runs from its beginning. -/
lemma interpret_started (hstack : 0 < m.config.maxStack) (hcalls : 0 < m.config.maxCalls)
    (harity : p.arity = 0) (hchunk : p.chunk = some w) (natives : Natives) (budget : Nat) :
    m.interpret natives budget p = ending (run natives budget (m.started p w)) := by
  have hcall : callClosure m.scriptId (.ofPrototype p) 0 (m.loaded p) = .ok () (m.started p w) := by
    have harity' : ¬ ((0 : Nat) : Int) ≠ (FunctionObject.ofPrototype p).arity := by
      rw [FunctionObject.ofPrototype, harity]
      exact fun h => h rfl
    have hroom : ¬ (m.loaded p).config.maxCalls ≤ (m.loaded p).frames.size := Nat.not_le.2 hcalls
    rw [callClosure_apply, if_neg harity', if_neg hroom, FunctionObject.ofPrototype, hchunk]
    rfl
  rw [interpret_eq, if_neg (Nat.not_le.2 hstack), bind_apply, hcall]

/-- What a machine shows at the beginning of a script. -/
lemma Grounded.shows_started (hm : m.Grounded)
    (hstack : MachineConfig.standard.maxStack ≤ m.config.maxStack) :
    ∃ callee, (m.started p w).Shows m.printed.toList w ⟨[], m.environment, []⟩ 0 [callee] := by
  obtain ⟨hheap, hissued, henvironment⟩ := hm.resetStack
  -- First the function is put on the heap, then its closure.
  have hheap₁ := hheap.allocate (o := .function (.ofPrototype p)) (by simp) (by simp)
  have hissued₁ : (m.resetStack.heap.allocate (.function (.ofPrototype p))).2.IssuedGlobals
      m.globals := Heap.IssuedGlobals.mono hissued (Nat.le_succ _)
  have hheap₂ := hheap₁.allocate
    (o := .newClosure (some m.resetStack.heap.fresh) p.captures.size) (by simp [Object.newClosure])
    (by
      intro made us hmade
      cases hmade
      exact Nat.lt_succ_self _)
  refine ⟨(m.started p w).heap.datum (.object (some m.scriptId)), hheap₂, ?_, rfl, hstack,
    ⟨_, _, rfl⟩, ?_, rfl, ?_, (List.append_nil _).symm⟩
  · exact Heap.IssuedGlobals.mono hissued₁ (Nat.le_succ _)
  · intro v hv
    cases List.mem_singleton.1 hv
    intro i hi
    cases hi
    exact Nat.lt_succ_self _
  · exact (hheap₁.environment_allocate hissued₁ _).trans
      ((hheap.environment_allocate hissued _).trans henvironment)

/-! ## Enough instructions -/

/-- A run that was not stopped is not changed by more instructions. -/
lemma run_add {n : Nat} (h : ∀ m', run natives n m ≠ .error .suspended m') (k : Nat) :
    run natives (n + k) m = run natives n m := by
  induction n generalizing m with
  | zero => exact absurd (run_zero_apply natives m) (h m)
  | succ n ih =>
    rw [Nat.succ_add, run_succ_apply, run_succ_apply]
    rw [run_succ_apply] at h
    cases hback : m.frames.back? with
    | none => rfl
    | some frame =>
      rw [hback] at h
      dsimp only at h ⊢
      cases hstep : (do betweenInstructions frame; step natives frame : MachineM Unit) m with
      | error e m' => rfl
      | ok _ m' =>
        rw [hstep] at h
        exact ih h

lemma ending_eq_suspended {r : EStateM.Result Halt Machine Unit} :
    (ending r).1 = .suspended ↔ ∃ m', r = .error .suspended m' := by
  constructor
  · intro h
    cases r with
    | ok _ m' => cases h
    | error e m' =>
      cases e with
      | suspended => exact ⟨m', rfl⟩
      | _ => cases h
  · rintro ⟨m', rfl⟩
    rfl

lemma interpret_add (hstack : 0 < m.config.maxStack) (hcalls : 0 < m.config.maxCalls)
    (harity : p.arity = 0) (hchunk : p.chunk = some w) {budget : Nat}
    (h : (m.interpret natives budget p).1 ≠ .suspended) (k : Nat) :
    m.interpret natives (budget + k) p = m.interpret natives budget p := by
  rw [interpret_started hstack hcalls harity hchunk] at h ⊢
  rw [interpret_started hstack hcalls harity hchunk, run_add]
  intro m' hsuspended
  exact h (ending_eq_suspended.2 ⟨m', hsuspended⟩)

end Machine

/-! ## Evaluations and runs -/

/-- A script that was run has ended the way an evaluation ended, with the same lines printed after
those before, and the same globals. -/
structure Evaluation.Describes (ev : Evaluation) (before : List Text) (outcome : Ending × Machine) :
    Prop where
  ending : outcome.1 = .finished ∧ ev.cause? = none ∨
    ∃ e, outcome.1 = .failed e ∧ ev.cause? = some e.cause
  printed : outcome.2.printed.toList = before ++ ev.printed
  globals : outcome.2.environment = ev.globals

lemma Evaluation.Describes.ne_suspended {ev : Evaluation} {before : List Text}
    {outcome : Ending × Machine} (h : ev.Describes before outcome) : outcome.1 ≠ .suspended := by
  rcases h.ending with ⟨hfinished, -⟩ | ⟨e, hfailed, -⟩
  · simp [hfinished]
  · simp [hfailed]

/-- What a script does on the machine is what the tree means: its run ends if and only if the
evaluation of the tree from the machine's globals does, and then the one describes the other. -/
structure Stmt.Preserved (tree : Stmt) (p : Prototype) (natives : Natives) (m : Machine) : Prop where
  ends_iff : (∃ budget, (m.interpret natives budget p).1 ≠ .suspended) ↔
    ∃ bound, (tree.evaluate bound m.environment).isSome
  describes : ∀ budget bound ev, (m.interpret natives budget p).1 ≠ .suspended →
    tree.evaluate bound m.environment = some ev →
    ev.Describes m.printed.toList (m.interpret natives budget p)

/-- Nothing is left to clear where there are no captured variables on the stack. -/
lemma Machine.Reports.resetStack {before : List Text} {σ : Store} {m : Machine}
    (h : m.Reports before σ) : m.resetStack.Reports before σ := by
  have hreset : m.resetStack = { m with stack := #[], frames := #[], openUpvalues := [] } := by
    unfold Machine.resetStack closeUpvalues
    rw [h.opened]
    rfl
  rw [hreset]
  exact ⟨rfl, h.globals, h.printed⟩

section Scripts

variable {tree : Stmt} {c : Code} {g : Context} {m : Machine}

lemma Stmt.namesAfter_nil (s : Stmt) : s.namesAfter [] = [] := by
  induction s with
  | seq first rest ih ih' => rw [namesAfter, ih, ih']
  | _ => rfl

lemma Store.values_of_names_eq_nil {σ : Store} (h : σ.names = []) (callee : Datum) :
    σ.values callee = [callee] := by
  have hscopes : σ.scopes = [] := List.map_eq_nil_iff.1 h
  rw [values, bindings, hscopes]
  rfl

/-- What a run of a script has to do with the evaluation of its tree. -/
lemma Stmt.Emits.agrees_script (h : Emits .script tree c g) (hs : tree.Structured)
    (hfree : tree.isFunctionFree) (hnamed : tree.AllExprs Expr.Named)
    (hheight : tree.AllExprs fun e => e.height ≤ maxNesting) (hm : m.Grounded)
    (hstack : MachineConfig.standard.maxStack ≤ m.config.maxStack) (hcalls : 0 < m.config.maxCalls)
    (line : UInt32) (natives : Natives) (bound : Nat) :
    match tree.evaluate bound m.environment with
    | some ev => ∃ n, ∀ k, ev.Describes m.printed.toList
        (m.interpret natives (n + k) (g.scope.prototypeOf c line))
    | none => ∀ budget ≤ bound,
        (m.interpret natives budget (g.scope.prototypeOf c line)).1 = .suspended := by
  have hsound := (h.models Context.models_script hs hfree).sound
  obtain ⟨hc, hreturn⟩ := Chunk.holds_append.1 (hsound.scope.holds_append (c ++ returnCode line))
  obtain ⟨hnil, hret⟩ := Chunk.holds_cons.1 hreturn
  have harity : (g.scope.prototypeOf c line).arity = 0 := congrArg Nat.cast h.widens.arity
  have hinterpret := interpret_started (Nat.lt_of_lt_of_le (by decide) hstack) hcalls harity
    (w := g.scope.chunk.append (c ++ returnCode line)) rfl natives
  obtain ⟨callee, hshows⟩ := hm.shows_started (p := g.scope.prototypeOf c line) hstack
  have hagrees := h.performs natives m.printed.toList bound callee Context.models_script hs hfree
    hnamed hheight (g.scope.fits_append (c ++ returnCode line)) hc rfl hshows
  rw [Stmt.evaluate]
  cases hrun : tree.run bound ⟨[], m.environment, []⟩ with
  | ok _ σ =>
    rw [hrun] at hagrees
    obtain ⟨n, m₁, hlead, hnames, h₁⟩ := hagrees
    rw [tree.namesAfter_nil] at hnames
    rw [Store.values_of_names_eq_nil hnames] at h₁
    have hroom : [callee].length < MachineConfig.standard.maxStack :=
      (by decide : 1 < MachineConfig.standard.maxStack)
    obtain ⟨m₂, hlead', h₂⟩ : ∃ m₂, m₁.Leads natives 1 m₂ ∧
        m₂.Shows m.printed.toList (g.scope.chunk.append (c ++ returnCode line)) σ (0 + c.size + 1)
          ([callee] ++ [Literal.nil.datum]) :=
      h₁.leads (hnil.decode rfl) fun _ _ _ h => Shows.computes_literal hroom .nil h
    obtain ⟨m₃, hend, hreports⟩ := h₂.run_ret natives hret
    refine ⟨n + 1 + 2, fun k => ?_⟩
    rw [hinterpret, Nat.add_assoc (n + 1), (hlead.trans hlead') (2 + k), hend]
    exact ⟨.inl ⟨rfl, rfl⟩, hreports.printed, hreports.globals⟩
  | error e σ =>
    rw [hrun] at hagrees
    cases e with
    | failed cause =>
      obtain ⟨n, m₁, hfails, hreports⟩ := hagrees
      refine ⟨n, fun k => ?_⟩
      rw [hinterpret, hfails]
      exact ⟨.inr ⟨_, rfl, rfl⟩, hreports.resetStack.printed, hreports.resetStack.globals⟩
    | exhausted =>
      obtain ⟨n, m₁, hbound, hlead⟩ := hagrees
      intro budget hbudget
      rw [hinterpret]
      by_contra hended
      rw [ending_eq_suspended, not_exists] at hended
      have hsame := run_add hended (n - budget)
      rw [Nat.add_sub_cancel' (Nat.le_trans hbudget hbound)] at hsame
      exact hended m₁ (hsame.symm.trans (hlead 0))

/-- A run of a script that ended and an evaluation of its tree. -/
lemma Stmt.Emits.preserves (h : Emits .script tree c g) (hs : tree.Structured)
    (hfree : tree.isFunctionFree) (hnamed : tree.AllExprs Expr.Named)
    (hheight : tree.AllExprs fun e => e.height ≤ maxNesting) (hm : m.Grounded)
    (hstack : MachineConfig.standard.maxStack ≤ m.config.maxStack) (hcalls : 0 < m.config.maxCalls)
    (line : UInt32) (natives : Natives) : tree.Preserved (g.scope.prototypeOf c line) natives m := by
  have hagrees := h.agrees_script hs hfree hnamed hheight hm hstack hcalls line natives
  constructor
  · constructor
    · rintro ⟨budget, hended⟩
      refine ⟨budget, ?_⟩
      have hagree := hagrees budget
      cases hev : tree.evaluate budget m.environment with
      | some ev => rfl
      | none =>
        rw [hev] at hagree
        exact absurd (hagree budget (Nat.le_refl _)) hended
    · rintro ⟨bound, hsome⟩
      obtain ⟨ev, hev⟩ := Option.isSome_iff_exists.1 hsome
      have hagree := hagrees bound
      rw [hev] at hagree
      obtain ⟨n, hn⟩ := hagree
      exact ⟨n, (hn 0).ne_suspended⟩
  · intro budget bound ev hended hev
    have hagree := hagrees bound
    rw [hev] at hagree
    obtain ⟨n, hn⟩ := hagree
    have harity : (g.scope.prototypeOf c line).arity = 0 := congrArg Nat.cast h.widens.arity
    rw [← interpret_add (Nat.lt_of_lt_of_le (by decide) hstack) hcalls harity rfl hended n,
      Nat.add_comm]
    exact hn budget

end Scripts

/-! ## Sessions

A machine is related to itself by what `Renamed.session` says of a session run twice, so whatever
its globals refer to is there.
-/

lemma Machine.Renamed.grounded {ρ : Renaming} {m m' : Machine} (hr : m.Renamed ρ m')
    (hm : m.Sound) : m.Grounded := by
  have hissued : ∀ {i j : ObjectId}, ρ i j → i < m.heap.fresh := by
    intro i j hij
    obtain ⟨o, -, ho, -⟩ := hr.heap.objects hij
    exact hm.heap.below ho
  refine ⟨⟨hm.heap, fun hget => (hm.objects hget _ rfl).1⟩, fun u hu => ⟨_, hm.opened u hu⟩, ?_⟩
  intro i v hv
  obtain ⟨j, v', hij, -, hren⟩ := hr.globals.left hv
  refine ⟨hissued hij, fun k hk => ?_⟩
  obtain ⟨l, hkl⟩ : ∃ l, ρ k l := by
    cases hren with
    | object href =>
      cases hk
      cases href with
      | some hkl => exact ⟨_, hkl⟩
    | _ => cases hk
  exact hissued hkl

/-- The machine that is left by a session is one that `compile_preserves` speaks of. -/
lemma Vm.grounded_session (config : MachineConfig) {hosts : List HostFunction}
    (hhosts : ∀ host ∈ hosts, host.native.Lawful ∧ host.native.Uniform) (budget : Nat)
    (inputs : List Input) :
    (session budget ((Vm.new config).register hosts) inputs).2.machine.Grounded := by
  obtain ⟨ρ, hnew⟩ := renamed_new config config.heap config.heap
  obtain ⟨σ, hregistered⟩ := hnew.register fun host hhost => (hhosts host hhost).2
  obtain ⟨-, τ, hleft⟩ := hregistered.session budget inputs
  have hsound := ((sound_new config).register fun host hhost => (hhosts host hhost).1).after_session
    budget inputs
  exact hleft.machine.grounded hsound.machine

/-! ## Sources -/

/-- The source stands for the tree: its tokens derive the tree, with each `else` at the nearest
conditional. -/
def Stmt.IsTreeOf (tree : Stmt) (source : Text) : Prop :=
  ∃ body last, tokenize source = body ++ [last] ∧ Derives false .declarations tree body ∧
    tree.NearestElse

/-- A source stands for one tree at most. -/
lemma Stmt.IsTreeOf.unique {tree tree' : Stmt} {source : Text} (h : tree.IsTreeOf source)
    (h' : tree'.IsTreeOf source) : tree = tree' := by
  obtain ⟨body, last, htokens, hderives, hnearest⟩ := h
  obtain ⟨body', last', htokens', hderives', hnearest'⟩ := h'
  rw [htokens] at htokens'
  obtain ⟨rfl, -⟩ := List.append_inj' htokens' rfl
  exact hderives.unique hnearest hderives' hnearest'

/-- Compilation preserves the meaning of programs without functions.  An accepted source stands for
one tree.  If there are no functions in it, then whatever the host functions and the globals to begin
with are, the script does what the tree means. -/
theorem compile_preserves {source : Text} {p : Prototype} (h : compile false source = .script p) :
    (∃! tree : Stmt, tree.IsTreeOf source) ∧
      ∀ tree : Stmt, tree.IsTreeOf source → tree.isFunctionFree → ∀ (natives : Natives) (m : Machine),
        m.Grounded → MachineConfig.standard.maxStack ≤ m.config.maxStack → 0 < m.config.maxCalls →
        tree.Preserved p natives m := by
  obtain ⟨body, last, tree, c, g, line, htokens, -, hderives, hnearest, hheight, hemits, rfl⟩ :=
    compile_eq_script h
  have htree : tree.IsTreeOf source := ⟨body, last, htokens, hderives, hnearest⟩
  have hnamed := hderives.named_of_tokenize htokens
  refine ⟨⟨tree, htree, fun _ htree' => htree'.unique htree⟩, ?_⟩
  intro tree' htree' hfree natives m hm hstack hcalls
  obtain rfl := htree'.unique htree
  exact hemits.preserves hderives.structured.1 hfree hnamed hheight hm hstack hcalls line natives

/-- A loop that counts a global up and prints it, on a machine that was just made: the loop goes round
three times. -/
theorem compile_preserves_count :
    let loop : Stmt := .whileLoop (.binary .less (.var "n") (.number "3"))
      (.print (.assign "n" (.binary .add (.var "n") (.number "1"))))
    let tree : Stmt := .seq (.declareVar "n" (.number "0")) (.seq loop .skip)
    let vm := Vm.new .standard
    (∃ p, compile false "var n = 0; while (n < 3) print n = n + 1;" = .script p ∧
      tree.Preserved p vm.natives vm.machine) ∧
    (tree.evaluate 4 vm.machine.environment).map (·.printed) =
      some [Text.ofString "1\n", Text.ofString "2\n", Text.ofString "3\n"] := by
  intro loop tree vm
  refine ⟨?_, by decide +kernel⟩
  obtain ⟨p, hp⟩ := Compilation.exists_of_isSome
    (c := compile false "var n = 0; while (n < 3) print n = n + 1;") (by decide +kernel)
  refine ⟨p, hp, (compile_preserves hp).2 _ ?_ rfl _ _ ?_ (Nat.le_refl _) (by decide)⟩
  · let sign (kind : Token.Kind) (t : Text) (column : Nat) : Token :=
      ⟨kind, t, 1, .ofNat column, column - 1, column - 1 + t.length⟩
    have hname (column : Nat) (p : Precedence) :
        Expr.Derives (.level p) [.var "n"] [sign .identifier "n" column] :=
      .loosen p.rank_le (@Expr.Derives.var (sign .identifier "n" column) rfl)
    have hdigit (t : Text) (column : Nat) (p : Precedence) :
        Expr.Derives (.level p) [.number t] [sign .number t column] :=
      .loosen p.rank_le (@Expr.Derives.number (sign .number t column) rfl)
    have hdeclare := @Stmt.Derives.declareVar false .declaration (sign .varWord "var" 1)
      (sign .identifier "n" 5) (sign .equal "=" 7) (sign .semicolon ";" 10) _ _ (.inl rfl) rfl rfl rfl
      rfl (hdigit "0" 9 _)
    have hcondition := @Expr.Derives.binary .less (sign .less "<" 21) _ _ _ _ rfl (hname 19 _)
      (hdigit "3" 23 _)
    have hvalue := @Expr.Derives.binary .add (sign .plus "+" 38) _ _ _ _ rfl (hname 36 _)
      (hdigit "1" 40 _)
    have hassign := @Expr.Derives.assign (sign .identifier "n" 32) (sign .equal "=" 34) _ _ rfl rfl
      (hvalue.loosen (by decide))
    have hbody := @Stmt.Derives.print false (sign .printWord "print" 26) (sign .semicolon ";" 41) _ _
      rfl rfl hassign
    have hloop := @Stmt.Derives.whileLoop false (sign .whileWord "while" 12)
      (sign .leftParen "(" 18) (sign .rightParen ")" 24) _ _ _ _ rfl rfl rfl
      (hcondition.loosen (by decide)) hbody
    exact ⟨_, sign .eof [] 42, by decide +kernel,
      .next hdeclare (.next (.ofStatement hloop) .done), trivial, trivial, trivial⟩
  · exact Vm.grounded_session .standard (List.forall_mem_nil _) 0 []

end Lox
