import RefMachine.Proofs.Machine.Perform

/-!
# What evaluation does

Whatever an expression does, the references of the machine stay accounted for, and what is not its own is kept: the
stack below its frame, what the host holds, and the variables that no instruction binds. Evaluation yields a value with
a reference of its own, or ends with a fault that the program caused; then every reference is still counted, and some
may be counted that nobody holds any more.

The argument follows the evaluator: one instruction (`step_ends`), a run of them (`runCode_ends`), a frame
(`enter_ends`), and expressions inside each other by induction on the room for them (`evaluateWithin_ends`).
-/

namespace RefMachine

namespace Machine

variable {m m' m'' : Machine} {ledger : Ledger} {host : Multiset Value} {frozen : Set Nat} {floor : List Value}
  {v : Value} {evaluate : Expression → MachineM Fault Value}

/-! ## The instructions that an evaluation comes to -/

/-- The machine in which a nested expression is entered. -/
abbrev descended (m : Machine) (heap : Heap) : Machine :=
  { m.dropped 1 with heap := heap, depth := m.depth + 1 }

/-- Carrying out the instructions from the machine `m` comes to one of them in the machine `m'`. -/
inductive Comes (evaluate : Expression → MachineM Fault Value) :
    List Instruction → Machine → Instruction → Machine → Prop where
  | here (i : Instruction) (rest : List Instruction) (m : Machine) : Comes evaluate (i :: rest) m i m
  | next {i j : Instruction} {rest : List Instruction} {m m₁ m' : Machine} (hstep : step evaluate i m = .ok () m₁)
    (hrest : Comes evaluate rest m₁ j m') : Comes evaluate (i :: rest) m j m'

theorem Comes.mem {code : List Instruction} {i : Instruction} (hcomes : Comes evaluate code m i m') : i ∈ code := by
  induction hcomes with
  | here => exact List.mem_cons_self
  | next _ _ ih => exact List.mem_cons_of_mem _ ih

/-- Entering an expression comes to one of its own instructions, or to one of an expression that it evaluates. -/
inductive Enters (evaluate : Expression → MachineM Fault Value)
    (deeper : Expression → Machine → Instruction → Machine → Prop) (e : Expression) (m : Machine) (i : Instruction)
    (m' : Machine) : Prop where
  | own (hcomes : Comes evaluate e.code { m with base := m.stack.length } i m') : Enters evaluate deeper e m i m'
  | nested {j : Instruction} {m₁ : Machine} {handle : Value} {e' : Expression} {heap₁ : Heap}
    (hcomes : Comes evaluate e.code { m with base := m.stack.length } j m₁)
    (hresolve : m₁.resolve j = .ok (.evaluate handle e')) (hrelease : Heap.release handle m₁.heap = .ok () heap₁)
    (hdeeper : deeper e' (m₁.descended heap₁) i m') : Enters evaluate deeper e m i m'

section Carrier

variable {σ : Type} [Carrier σ]

/-- How nested expressions are evaluated within the given room. -/
def innerWithin : Nat → Expression → EStateM Fault σ Value
  | 0 => fun _ => pure .error
  | room + 1 => evaluateWithin room

theorem evaluateWithin_eq (room : Nat) :
    (evaluateWithin room : Expression → EStateM Fault σ Value) = enter (innerWithin room) := by
  cases room <;> rfl

theorem step_apply (evaluate : Expression → EStateM Fault σ Value) (i : Instruction) (s : σ) :
    step evaluate i s =
      match (Carrier.machine s).resolve i with
      | .ok action => perform evaluate action s
      | .error halt => .error halt s := by
  unfold step
  rw [get_bind_apply]
  cases (Carrier.machine s).resolve i <;> rfl

theorem enter_of_isEmpty {evaluate : Expression → EStateM Fault σ Value} {e : Expression} {s : σ}
    (hcode : e.code.isEmpty = true) : enter evaluate e s = .ok .error s := by
  unfold enter
  rw [if_pos hcode]

end Carrier

theorem step_of_resolve {i : Instruction} {action : Action} (hresolve : m.resolve i = .ok action) :
    step evaluate i m = perform evaluate action m := by
  rw [step_apply, Carrier.machine_eq, hresolve]

theorem step_of_halt {i : Instruction} {halt : Halt} (hresolve : m.resolve i = .error halt) :
    step evaluate i m = .error halt m := by
  rw [step_apply, Carrier.machine_eq, hresolve]

/-- Evaluating an expression within the given room comes to an instruction in the machine `m'`. -/
def VisitsWithin : Nat → Expression → Machine → Instruction → Machine → Prop
  | 0 => Enters (innerWithin 0) fun _ _ _ _ => False
  | room + 1 => Enters (innerWithin (room + 1)) (VisitsWithin room)

/-- Evaluating an expression comes to an instruction, of its own or of a nested expression, in the machine `m'`. -/
def Visits (e : Expression) (m : Machine) : Instruction → Machine → Prop :=
  VisitsWithin (m.limits.maxDepth - m.depth) e m

/-- The instruction binds no variable among the given ones. -/
def Spares (m : Machine) (frozen : Set Nat) (i : Instruction) : Prop :=
  ∀ v index mutability, m.resolve i = .ok (.assign v index mutability) → m.scope.Accepts index mutability →
    index ∉ frozen

theorem spares_empty (m : Machine) (i : Instruction) : m.Spares ∅ i :=
  fun _ _ _ _ _ => Set.notMem_empty _

/-! ## One instruction -/

/-- How the instructions of an expression may go on. -/
structure Continues (ledger : Ledger) (frozen : Set Nat) (floor : List Value) (host : Multiset Value)
    (m m' : Machine) : Prop where
  accounts : m'.Accounts ledger host
  evolves : m.Evolves frozen floor host m'

/-- How a fault may leave the machine. -/
structure Faults (frozen : Set Nat) (floor : List Value) (host : Multiset Value) (m : Machine) (f : Fault)
    (m' : Machine) : Prop where
  admits : m.Admits f
  safe : m'.Safe host
  evolves : m.Evolves frozen floor host m'

/-- How the instructions of an expression may stop. -/
def Stops (ledger : Ledger) (frozen : Set Nat) (floor : List Value) (host : Multiset Value) (m : Machine) :
    Halt → Machine → Prop
  | .fault f, m' => Faults frozen floor host m f m'
  | .diagnostic _, m' | .reported, m' => Continues ledger frozen floor host m m'

/-- How an evaluation may end: with the stack as it was and a value of its own, or with a fault. -/
def Evaluates (ledger : Ledger) (frozen : Set Nat) (host : Multiset Value) (m : Machine) :
    EStateM.Result Fault Machine Value → Prop :=
  Ends (fun v m' => m'.Accounts ledger (v ::ₘ host) ∧ m'.stack = m.stack ∧ m.Evolves frozen m.stack host m')
    (Faults frozen m.stack host m)

theorem Evaluates.of_nothing (ha : m.Accounts ledger host) : Evaluates ledger frozen host m (.ok .error m) := by
  refine ⟨?_, rfl, .refl (List.suffix_refl _)⟩
  rw [Machine.Accounts, roots_cons]
  exact Heap.Accounts.cons_of_not_counted ha id

theorem Faults.trans {f : Fault} (he : m.Evolves frozen floor host m') (hf : Faults frozen floor host m' f m'') :
    Faults frozen floor host m f m'' where
  admits := by
    have hadmits := hf.admits
    cases f with
    | stackUnderflow op => exact hadmits
    | unknownLiteral id => rwa [Admits, he.literals_eq] at hadmits
    | variableOutOfRange index size => rwa [Admits, he.size_eq] at hadmits
    | heap e => exact hadmits
  safe := hf.safe
  evolves := he.trans hf.evolves

theorem Stops.trans {halt : Halt} (he : m.Evolves frozen floor host m')
    (hs : Stops ledger frozen floor host m' halt m'') : Stops ledger frozen floor host m halt m'' := by
  cases halt with
  | fault f => exact Faults.trans he hs
  | diagnostic d => exact ⟨hs.accounts, he.trans hs.evolves⟩
  | reported => exact ⟨hs.accounts, he.trans hs.evolves⟩

theorem perform_evaluate {handle : Value} {heap₁ : Heap} (hrelease : Heap.release handle m.heap = .ok () heap₁)
    (evaluate : Expression → MachineM Fault Value) (e : Expression) :
    perform evaluate (.evaluate handle e) m =
      match evaluate e (m.descended heap₁) with
      | .ok v m₂ =>
        if v.isError then .error (.diagnostic .nestedEvaluation) { m₂ with depth := m₂.depth - 1 }
        else .ok () { m₂ with stack := v :: m₂.stack, depth := m₂.depth - 1 }
      | .error f m₂ => .error (.fault f) { m₂ with depth := m₂.depth - 1 } := by
  have hon : faulting (Heap.release handle) (m.dropped 1) = .ok () { m.dropped 1 with heap := heap₁ } := by
    unfold faulting EStateM.adaptExcept
    rw [onHeap_eq, hrelease]
  change (faulting (Heap.release handle) >>= _) (m.dropped 1) = _
  rw [bind_apply_of_ok hon]
  change EStateM.bind ((nest evaluate e).adaptExcept _) _ _ = _
  unfold EStateM.bind EStateM.adaptExcept nest
  cases evaluate e (m.descended heap₁) with
  | ok v m₂ => cases v <;> rfl
  | error f m₂ => rfl

theorem Accounts.descended {handle : Value} {e : Expression} {heap₁ : Heap} (ha : m.Accounts ledger host)
    (hw : m.Warrants (.evaluate handle e)) (hrelease : Heap.release handle m.heap = .ok () heap₁) :
    (m.descended heap₁).Accounts ledger host ∧ m.heap.Keeps heap₁ { w | w ∈ (m.dropped 1).roots host } := by
  obtain ⟨hhead, -, -⟩ := hw.supports
  rw [Machine.Accounts, roots_of_head hhead, roots_cons] at ha
  obtain ⟨heap', hrun, ha', hkeeps, -⟩ := ha.release
  rw [hrelease] at hrun
  cases hrun
  exact ⟨ha', hkeeps⟩

theorem Evaluates.ascend {heap₁ : Heap} {e : Expression} (hfloor : floor <:+ m.stack.drop 1)
    (hheap : m.heap.Evolves m.texts { w | w ∈ (m.dropped 1).roots host } heap₁)
    (hev : Evaluates ledger frozen host (m.descended heap₁) (evaluate e (m.descended heap₁))) :
    Ends (fun v m' => { m' with depth := m'.depth - 1 }.Accounts ledger (v ::ₘ host) ∧
        m.Evolves frozen floor host { m' with depth := m'.depth - 1 })
      (fun f m' => Faults frozen floor host m f { m' with depth := m'.depth - 1 })
      (evaluate e (m.descended heap₁)) := by
  have hdescend : m.Evolves frozen floor host { m.dropped 1 with heap := heap₁ } :=
    .of_heap hfloor (hheap.mono (@held_subset_roots (m.dropped 1) _ _ _ hfloor))
  have hascend : ∀ m', (m.descended heap₁).Evolves frozen (m.stack.drop 1) host m' →
      m.Evolves frozen floor host { m' with depth := m'.depth - 1 } := by
    intro m' he
    have hdepth : m'.depth - 1 = m.depth := by
      rw [he.depth_eq, Nat.add_sub_cancel]
    rw [hdepth]
    exact hdescend.trans (Evolves.of_depth (he.lower hfloor))
  refine hev.mono ?_ ?_
  · rintro v m' ⟨ha, -, he⟩
    exact ⟨ha, hascend m' he⟩
  · rintro f m' ⟨hadmits, hsafe, he⟩
    exact ⟨by cases f <;> exact hadmits, hsafe, hascend m' he⟩

theorem Assigns.evolves {index : Nat} {mutability : Mutability} {r : EStateM.Result Halt Machine Unit}
    (hassigns : Assigns host m v index mutability r) (hfloor : floor <:+ m.stack.drop 1)
    (hspares : m.scope.Accepts index mutability → index ∉ frozen) :
    Ends (fun _ => m.Evolves frozen floor host) (fun _ => m.Evolves frozen floor host) r := by
  have hdrop : m.Evolves frozen floor host (m.dropped 1) := .of_heap hfloor (.refl _)
  cases hassigns with
  | bound hb hv =>
    have he := hdrop.trans (hb.evolves hfloor hspares).of_cons
    exact he.restack (he.suffix.trans (List.suffix_cons _ _))
  | reported hb hbound hw hheap =>
    have he := hdrop.trans (hb.evolves hfloor hspares).of_cons
    exact he.trans (.of_heap he.suffix (hheap.mono (held_subset_roots he.suffix)))
  | failed he => exact hdrop

theorem perform_ends {action : Action} (ha : m.Accounts ledger host) (hw : m.Warrants action)
    (hbase : m.base = floor.length) (hfloor : floor <:+ m.stack)
    (hspares : ∀ v index mutability, action = .assign v index mutability → m.scope.Accepts index mutability →
      index ∉ frozen)
    (hev : ∀ handle e heap₁, action = .evaluate handle e → Heap.release handle m.heap = .ok () heap₁ →
      (m.descended heap₁).Accounts ledger host →
      Evaluates ledger frozen host (m.descended heap₁) (evaluate e (m.descended heap₁))) :
    Ends (fun _ => Continues ledger frozen floor host m) (Stops ledger frozen floor host m)
      (perform evaluate action m) := by
  have hsuffix := suffix_drop hbase hfloor hw.arity_le
  by_cases hpushing : action.Pushing
  · refine (perform_pushing ha hw hpushing evaluate).mono ?_ ?_
    · intro _ m' hp
      exact ⟨hp.accounts, hp.confines.evolves hbase hfloor hw.arity_le⟩
    · rintro halt m' ⟨⟨e, rfl, he⟩, hsafe, hconfines⟩
      exact ⟨he, hsafe, hconfines.evolves hbase hfloor hw.arity_le⟩
  · cases action with
    | push | intern | replace | compare | pack | quote | cons => exact absurd trivial hpushing
    | skip => exact ⟨ha, .refl hfloor⟩
    | assign v index mutability =>
      have haccepts := hspares v index mutability rfl
      refine (assign_ends ha hw.supports index mutability evaluate).mono ?_ ?_
      · rintro a m' ⟨ha', hassigns⟩
        exact ⟨ha', hassigns.evolves hsuffix haccepts⟩
      · rintro halt m' ⟨ha', hassigns⟩
        have he : m.Evolves frozen floor host m' := hassigns.evolves hsuffix haccepts
        cases hassigns with
        | reported hb hbound hw hheap => exact ⟨ha' rfl, he⟩
        | @failed e hfails =>
          refine ⟨?_, Heap.Accounts.safe_of_le ha (m.roots_dropped_le 1 host), he⟩
          cases e with
          | outOfRange i size =>
            obtain ⟨rfl, rfl, hsize⟩ := hfails
            exact ⟨rfl, hsize⟩
          | heap e => exact hfails.2
    | evaluate handle e =>
      obtain ⟨hhead, -, -⟩ := hw.supports
      rw [Machine.Accounts, roots_of_head hhead, roots_cons] at ha
      obtain ⟨heap₁, hrelease, ha₁, hkeeps, hshrinks⟩ := ha.release
      have hnested := (hev handle e heap₁ rfl hrelease ha₁).ascend hsuffix (hshrinks.evolves hkeeps)
      rw [perform_evaluate hrelease]
      cases hrun : evaluate e (m.descended heap₁) with
      | ok v m₂ =>
        obtain ⟨ha₂, he⟩ := hnested.of_ok hrun
        rw [Machine.Accounts, roots_cons] at ha₂
        dsimp only
        by_cases hv : v.isError = true
        · have hnone : ¬ v.Counted := by
            cases v <;> first | exact id | cases hv
          rw [if_pos hv]
          exact ⟨ha₂.of_cons_of_not_counted hnone, he⟩
        · rw [if_neg hv]
          refine ⟨?_, he.restack (he.suffix.trans (List.suffix_cons _ _))⟩
          rw [Machine.Accounts, roots_of_stack rfl]
          exact ha₂
      | error f m₂ => exact hnested.of_error hrun

/-- One instruction keeps the accounts, the floor and the frozen variables, if the evaluation inside it does. -/
theorem step_ends {i : Instruction} (ha : m.Accounts ledger host) (hbase : m.base = floor.length)
    (hfloor : floor <:+ m.stack) (hspares : m.Spares frozen i)
    (hev : ∀ handle e heap₁, m.resolve i = .ok (.evaluate handle e) → Heap.release handle m.heap = .ok () heap₁ →
      (m.descended heap₁).Accounts ledger host →
      Evaluates ledger frozen host (m.descended heap₁) (evaluate e (m.descended heap₁))) :
    Ends (fun _ => Continues ledger frozen floor host m) (Stops ledger frozen floor host m) (step evaluate i m) := by
  have hpasses := resolve_passes ha i
  refine Ends.bind_get ?_
  cases hresolve : m.resolve i with
  | ok action =>
    rw [hresolve] at hpasses
    refine perform_ends ha hpasses hbase hfloor ?_ ?_
    · rintro v index mutability rfl
      exact hspares v index mutability hresolve
    · rintro handle e heap₁ rfl
      exact hev handle e heap₁ hresolve
  | error halt =>
    rw [hresolve] at hpasses
    cases halt with
    | diagnostic d => exact ⟨ha, .refl hfloor⟩
    | reported => exact hpasses.elim
    | fault f => exact ⟨hpasses, ha.safe, .refl hfloor⟩

theorem runCode_ends {code : List Instruction} (ha : m.Accounts ledger host) (hbase : m.base = floor.length)
    (hfloor : floor <:+ m.stack) (hspares : ∀ i m₁, Comes evaluate code m i m₁ → m₁.Spares frozen i)
    (hev : ∀ i m₁ handle e heap₁, Comes evaluate code m i m₁ → m₁.resolve i = .ok (.evaluate handle e) →
      Heap.release handle m₁.heap = .ok () heap₁ → (m₁.descended heap₁).Accounts ledger host →
      Evaluates ledger frozen host (m₁.descended heap₁) (evaluate e (m₁.descended heap₁))) :
    Ends (fun _ => Continues ledger frozen floor host m) (Stops ledger frozen floor host m)
      (runCode evaluate code m) := by
  induction code generalizing m with
  | nil => exact ⟨ha, .refl hfloor⟩
  | cons i rest ih =>
    have hstep := step_ends ha hbase hfloor (hspares i m (.here i rest m)) fun handle e heap₁ =>
      hev i m handle e heap₁ (.here i rest m)
    unfold runCode
    change Ends _ _ (EStateM.bind (step evaluate i) _ m)
    unfold EStateM.bind
    cases hrun : step evaluate i m with
    | ok a m₁ =>
      obtain ⟨ha₁, he⟩ := hstep.of_ok hrun
      have hrest := ih ha₁ (he.base_eq.trans hbase) he.suffix
        (fun j m₂ hcomes => hspares j m₂ (.next hrun hcomes))
        fun j m₂ handle e heap₂ hcomes => hev j m₂ handle e heap₂ (.next hrun hcomes)
      refine hrest.mono ?_ ?_
      · intro _ m₂ hc
        exact ⟨hc.accounts, he.trans hc.evolves⟩
      · intro halt m₂ hs
        exact hs.trans he
    | error halt m₁ => exact hstep.of_error hrun

/-! ## Leaving a frame -/

/-- What an expression yields and reports when its instructions have run or one has stopped it. -/
inductive Verdict (floor : List Value) : EStateM.Result Halt Machine Unit → Value → List Diagnostic → Prop where
  | nothing {m : Machine} (hstack : m.stack = floor) : Verdict floor (.ok () m) .error [.emptyStackOnExit]
  | result {m : Machine} {v : Value} (hstack : m.stack = v :: floor) : Verdict floor (.ok () m) v []
  | imbalance {m : Machine} {v w : Value} {above : List Value} (hstack : m.stack = v :: w :: above ++ floor) :
    Verdict floor (.ok () m) .error [.stackImbalance floor.length (m.stack.length - 1)]
  | diagnostic (d : Diagnostic) (m : Machine) : Verdict floor (.error (.diagnostic d) m) .error [d]
  | reported (m : Machine) : Verdict floor (.error .reported m) .error []

theorem drop_of_suffix {α : Type} {xs ys : List α} (hsuffix : ys <:+ xs) : xs.drop (xs.length - ys.length) = ys :=
  (List.suffix_iff_eq_drop.mp hsuffix).symm

theorem abandon_eq (ha : m.Accounts ledger host) (hfloor : floor <:+ m.stack) :
    ∃ heap', abandon floor.length m = .ok .error { m with heap := heap', stack := floor } ∧
      heap'.Accounts ledger ({ m with stack := floor }.roots host) ∧
      m.heap.Evolves m.texts { w | w ∈ { m with stack := floor }.roots host } heap' := by
  obtain ⟨heap', hrun, ha', hheap⟩ := discard_eq ha (m.stack.length - floor.length)
  simp only [dropped, drop_of_suffix hfloor] at hrun ha' hheap
  refine ⟨heap', ?_, ha', hheap⟩
  have hunwind : unwindTo floor.length m = .ok () { m with heap := heap', stack := floor } := by
    change (discard (m.stack.length - floor.length)).adaptExcept Fault.heap m = _
    unfold EStateM.adaptExcept
    rw [hrun]
  rw [abandon, bind_apply_of_ok hunwind]
  rfl

theorem takeResult_of_cons {rest : List Value} {entry : Nat} (hstack : m.stack = v :: rest) (hle : entry ≤ rest.length) :
    takeResult entry m =
      (if rest.length = entry then pure v
        else do
          report (.stackImbalance entry rest.length)
          (onHeap (Heap.release v)).adaptExcept .heap
          abandon entry : MachineM Fault Value) { m with stack := rest } := by
  have hsize : ¬ m.stack.length ≤ entry := by
    rw [hstack, List.length_cons]
    omega
  change (if m.stack.length ≤ entry then _ else _ : MachineM Fault Value) m = _
  rw [if_neg hsize, Carrier.run_eq, bind_apply_of_ok (pop?_of_cons hstack), Carrier.machine_eq, dropped, hstack]
  rfl

/-- What leaving an expression with the machine `m` comes to. -/
structure Leaves (ledger : Ledger) (host : Multiset Value) (floor : List Value) (m : Machine) (v : Value)
    (reports : List Diagnostic) (m' : Machine) : Prop where
  machine_eq : m' = { m with heap := m'.heap, stack := floor, diagnostics := m.diagnostics ++ reports }
  accounts : m'.Accounts ledger (v ::ₘ host)
  heap : m.heap.Evolves m.texts { w | w ∈ { m with stack := floor }.roots host } m'.heap
  unfolds : ∀ tree, m.heap.Unfolds v tree → m'.heap.Unfolds v tree

theorem Leaves.of_error {reports : List Diagnostic} {heap' : Heap}
    (ha : heap'.Accounts ledger ({ m with stack := floor }.roots host))
    (hheap : m.heap.Evolves m.texts { w | w ∈ { m with stack := floor }.roots host } heap') :
    Leaves ledger host floor m .error reports
      { m with heap := heap', stack := floor, diagnostics := m.diagnostics ++ reports } where
  machine_eq := rfl
  accounts := by
    rw [Machine.Accounts, roots_cons]
    exact ha.cons_of_not_counted id
  heap := hheap
  unfolds tree htree := by
    cases htree with
    | atom htree => exact .atom htree

theorem takeResult_eq (ha : m.Accounts ledger host) (hfloor : floor <:+ m.stack) :
    ∃ v reports m', takeResult floor.length m = .ok v m' ∧ Verdict floor (.ok () m) v reports ∧
      Leaves ledger host floor m v reports m' := by
  obtain ⟨above, hstack⟩ := hfloor
  cases above with
  | nil =>
    rw [List.nil_append] at hstack
    have htake : takeResult floor.length m =
        .ok .error { m with stack := floor, diagnostics := m.diagnostics ++ [.emptyStackOnExit] } := by
      change (if m.stack.length ≤ floor.length then _ else _ : MachineM Fault Value) m = _
      rw [if_pos (hstack ▸ Nat.le_refl _), hstack]
      rfl
    have hm : { m with stack := floor } = m := by
      rw [hstack]
    exact ⟨.error, _, _, htake, .nothing hstack.symm, @Leaves.of_error m _ _ _ _ m.heap (hm.symm ▸ ha) (.refl _)⟩
  | cons v above =>
    rw [List.cons_append] at hstack
    have hlength : floor.length ≤ (above ++ floor).length := by
      rw [List.length_append]
      omega
    have hroots : m.roots host = v ::ₘ { m with stack := above ++ floor }.roots host := roots_of_stack hstack.symm
    rw [Machine.Accounts, hroots] at ha
    rw [takeResult_of_cons hstack.symm hlength]
    cases above with
    | nil =>
      have heq : ([] ++ floor).length = floor.length := rfl
      rw [if_pos heq]
      refine ⟨v, [], _, rfl, .result hstack.symm, ?_, ?_, .refl _, fun _ htree => htree⟩
      · rw [List.append_nil, List.nil_append]
      · rw [Machine.Accounts, roots_cons]
        exact ha
    | cons w above =>
      have hne : (w :: above ++ floor).length ≠ floor.length := by
        rw [List.length_append, List.length_cons]
        omega
      have hexit : m.stack.length - 1 = (w :: above ++ floor).length := by
        rw [← hstack, List.length_cons, Nat.add_sub_cancel]
      obtain ⟨heap₁, hrelease, ha₁, hkeeps, hshrinks⟩ := ha.release
      obtain ⟨heap₂, habandon, ha₂, hheap⟩ := @abandon_eq
        { m with heap := heap₁, stack := w :: above ++ floor,
                 diagnostics := m.diagnostics ++ [.stackImbalance floor.length (m.stack.length - 1)] }
        ledger host floor ha₁ (List.suffix_append _ _)
      have hsub := @roots_dropped_subset { m with stack := w :: above ++ floor } host (w :: above).length
      simp only [dropped, List.drop_left] at hsub
      rw [if_neg hne, ← hexit]
      refine ⟨.error, _, _, ?_, .imbalance hstack.symm, .of_error ha₂ ((hshrinks.evolves (hkeeps.mono hsub)).trans hheap)⟩
      rw [← habandon]
      change ((onHeap (Heap.release v)).adaptExcept .heap >>= fun _ => abandon floor.length : MachineM Fault Value)
        { m with stack := w :: above ++ floor,
                 diagnostics := m.diagnostics ++ [.stackImbalance floor.length (m.stack.length - 1)] } = _
      refine @bind_apply_of_ok _ _ _ _ _ _ _ () ?_ _
      unfold EStateM.adaptExcept
      rw [onHeap_eq, hrelease]

theorem Leaves.evolves {reports : List Diagnostic} (hl : Leaves ledger host floor m v reports m') :
    m.Evolves frozen floor host m' := by
  rw [hl.machine_eq]
  refine .of_heap (List.suffix_refl _) (hl.heap.mono ?_)
  exact @held_subset_roots { m with stack := floor } _ _ _ (List.suffix_refl _)

/-- After a run that no fault ended, `leave` takes the stack back to the floor, with the value and the reports of the
`Verdict`. -/
theorem leave_eq {r : EStateM.Result Halt Machine Unit} (hr : ∀ f m, r ≠ .error (.fault f) m)
    (ha : (endState r).Accounts ledger host) (hfloor : floor <:+ (endState r).stack) :
    ∃ v reports m', leave floor.length r = .ok v m' ∧ Verdict floor r v reports ∧
      Leaves ledger host floor (endState r) v reports m' := by
  cases r with
  | ok a m => exact takeResult_eq ha hfloor
  | error halt m =>
    cases halt with
    | diagnostic d =>
      obtain ⟨heap', hrun, ha', hheap⟩ := @abandon_eq { m with diagnostics := m.diagnostics ++ [d] } _ _ _ ha hfloor
      exact ⟨.error, [d], _, hrun, .diagnostic d m, .of_error ha' hheap⟩
    | reported =>
      obtain ⟨heap', hrun, ha', hheap⟩ := abandon_eq ha hfloor
      refine ⟨.error, [], _, ?_, .reported m, .of_error ha' hheap⟩
      rw [List.append_nil]
      exact hrun
    | fault f => exact absurd rfl (hr f m)

theorem continues_endState {r : EStateM.Result Halt Machine Unit}
    (hends : Ends (fun _ => Continues ledger frozen floor host m) (Stops ledger frozen floor host m) r)
    (hr : ∀ f m₁, r ≠ .error (.fault f) m₁) : Continues ledger frozen floor host m (endState r) := by
  cases r with
  | ok a m₁ => exact hends
  | error halt m₁ =>
    cases halt with
    | diagnostic d => exact hends
    | reported => exact hends
    | fault f => exact absurd rfl (hr f m₁)

/-! ## Whole evaluations -/

theorem enter_of_code {e : Expression} (hcode : e.code.isEmpty = false) :
    enter evaluate e m = afterwards (fun m' => { m' with base := m.base })
      (leave m.stack.length (runCode evaluate e.code { m with base := m.stack.length })) := by
  unfold enter
  rw [if_neg (by rw [hcode]; exact Bool.false_ne_true)]
  rfl

theorem enter_ends {e : Expression} (ha : m.Accounts ledger host)
    (hspares : ∀ i m₁, Comes evaluate e.code { m with base := m.stack.length } i m₁ → m₁.Spares frozen i)
    (hev : ∀ i m₁ handle e' heap₁, Comes evaluate e.code { m with base := m.stack.length } i m₁ →
      m₁.resolve i = .ok (.evaluate handle e') → Heap.release handle m₁.heap = .ok () heap₁ →
      (m₁.descended heap₁).Accounts ledger host →
      Evaluates ledger frozen host (m₁.descended heap₁) (evaluate e' (m₁.descended heap₁))) :
    Evaluates ledger frozen host m (enter evaluate e m) := by
  cases hcode : e.code.isEmpty with
  | true =>
    rw [enter_of_isEmpty hcode]
    exact .of_nothing ha
  | false =>
    have hrun := @runCode_ends { m with base := m.stack.length } ledger host frozen m.stack evaluate e.code ha rfl
      (List.suffix_refl _) hspares hev
    rw [enter_of_code hcode]
    by_cases hfault : ∃ f m₁, runCode evaluate e.code { m with base := m.stack.length } = .error (.fault f) m₁
    · obtain ⟨f, m₁, heq⟩ := hfault
      rw [heq] at hrun ⊢
      exact ⟨by cases f <;> exact hrun.admits, hrun.safe, hrun.evolves.of_base⟩
    · have hcontinues := continues_endState hrun fun f m₁ heq => hfault ⟨f, m₁, heq⟩
      obtain ⟨v, reports, m', hleave, -, hleaves⟩ := leave_eq (fun f m₁ heq => hfault ⟨f, m₁, heq⟩)
        hcontinues.accounts hcontinues.evolves.suffix
      have hstack : m'.stack = m.stack := by
        rw [hleaves.machine_eq]
      rw [hleave]
      exact ⟨hleaves.accounts, hstack, (hcontinues.evolves.trans hleaves.evolves).of_base⟩

theorem evaluateWithin_ends {room : Nat} {e : Expression} (ha : m.Accounts ledger host)
    (hspares : ∀ i m', VisitsWithin room e m i m' → m'.Spares frozen i) :
    Evaluates ledger frozen host m (evaluateWithin room e m) := by
  induction room generalizing e m with
  | zero =>
    rw [evaluateWithin_eq]
    refine enter_ends ha (fun i m₁ hcomes => hspares i m₁ (.own hcomes)) ?_
    intro i m₁ handle e' heap₁ _ _ _ ha₁
    exact .of_nothing ha₁
  | succ room ih =>
    rw [evaluateWithin_eq]
    refine enter_ends ha (fun i m₁ hcomes => hspares i m₁ (.own hcomes)) ?_
    intro i m₁ handle e' heap₁ hcomes hresolve hrelease ha₁
    exact ih ha₁ fun j m₂ hvisits => hspares j m₂ (.nested hcomes hresolve hrelease hvisits)

theorem innerWithin_ends (room : Nat) (e : Expression) (ha : m.Accounts ledger host) :
    Evaluates ledger ∅ host m (innerWithin room e m) := by
  cases room with
  | zero => exact .of_nothing ha
  | succ room => exact evaluateWithin_ends ha fun i m' _ => m'.spares_empty i

/-- `evaluate` keeps the accounts, the stack and the frozen variables, if no instruction that it visits binds one of
these. -/
theorem evaluate_ends {e : Expression} (ha : m.Accounts ledger host)
    (hspares : ∀ i m', Visits e m i m' → m'.Spares frozen i) :
    Evaluates ledger frozen host m (Machine.evaluate e m) :=
  evaluateWithin_ends ha hspares

theorem evaluate_ends_free (ha : m.Accounts ledger host) (e : Expression) :
    Evaluates ledger ∅ host m (Machine.evaluate e m) :=
  evaluate_ends ha fun i m' _ => m'.spares_empty i

end Machine

end RefMachine
