import RefMachine.Proofs.Frames

/-!
# Rejected instructions

All that is wrong with an instruction is found before it changes anything. One that is stopped by a diagnostic of its own
leaves the machine as it was (`rejected_instruction_inert`): once the checks are passed, an action is stopped only by a
fault, by the failure of an expression that it evaluated, or because a variable may not be bound again, which is reported
at once (`Machine.perform_late`). In the last case the value is taken from the stack and released, and nothing else
happens.
-/

namespace RefMachine

/-- What may stop an instruction that has passed its checks. -/
def Halt.Late : Halt → Prop
  | .diagnostic d => d = .nestedEvaluation
  | .reported | .fault _ => True

namespace Machine

variable {ε α β : Type} {m m' : Machine} {i : Instruction} {v : Value} {index : Nat} {mutability : Mutability}
  {evaluate : Expression → MachineM Fault Value}

/-! ## After the checks -/

/-- The operation makes no check that an instruction may fail. -/
def Unchecked (x : MachineM Halt α) : Prop :=
  ∀ m, Ends (fun _ _ => True) (fun halt _ => halt.Late) (x m)

namespace Unchecked

theorem bind {x : MachineM Halt α} {f : α → MachineM Halt β} (hx : Unchecked x) (hf : ∀ a, Unchecked (f a)) :
    Unchecked (x >>= f) :=
  fun m => (hx m).bind fun a m' _ => hf a m'

theorem of_fault (x : MachineM ε α) (f : ε → Fault) : Unchecked (x.adaptExcept fun e => .fault (f e)) :=
  fun m => Ends.adaptExcept (.of_forall (fun _ _ => trivial) (fun _ _ => trivial) (x m))

theorem of_modify (f : Machine → Machine) : Unchecked (modify f) :=
  fun _ => trivial

theorem share (v : Value) : Unchecked (Machine.share v) :=
  (of_fault _ _).bind fun _ => of_modify _

end Unchecked

theorem perform_late (evaluate : Expression → MachineM Fault Value) (action : Action) :
    Unchecked (perform evaluate action) := by
  have hnew : ∀ (k : Kind) (new : HeapM Handle), Unchecked (faulting new >>= fun h => share (.ref k h)) :=
    fun k new => (Unchecked.of_fault _ _).bind fun h => .share (.ref k h)
  cases action with
  | skip => exact fun _ => trivial
  | push v => exact .share v
  | intern text => exact hnew .string _
  | replace old new =>
    refine (Unchecked.of_fault _ _).bind fun _ => ?_
    exact (Unchecked.of_modify _).bind fun _ => (Unchecked.of_modify _).bind fun _ => .of_fault _ _
  | compare result => exact (Unchecked.of_modify _).bind fun _ => .of_modify _
  | pack arity => exact (Unchecked.of_fault _ _).bind fun h => .share (.ref .tuple h)
  | quote e => exact (Unchecked.of_modify _).bind fun _ => (Unchecked.of_fault _ _).bind fun _ => hnew .expression _
  | evaluate handle e =>
    refine (Unchecked.of_modify _).bind fun _ => (Unchecked.of_fault _ _).bind fun _ => ?_
    refine (Unchecked.of_fault _ _).bind fun v => ?_
    split_ifs
    · exact fun _ => rfl
    · exact .of_modify _
  | cons head tail => exact (Unchecked.of_modify _).bind fun _ => hnew .list _
  | assign v index mutability =>
    refine (Unchecked.of_modify _).bind fun _ => (Unchecked.of_fault _ _).bind fun bound => ?_
    split_ifs
    · exact (Unchecked.of_fault _ _).bind fun _ _ => trivial
    · exact .of_modify _

/-- A diagnostic other than `nestedEvaluation` comes from `resolve`, and the machine is as it was. -/
theorem resolve_of_step {d : Diagnostic} (hstep : step evaluate i m = .error (.diagnostic d) m')
    (hd : d ≠ .nestedEvaluation) : m.resolve i = .error (.diagnostic d) ∧ m' = m := by
  cases hresolve : m.resolve i with
  | error halt =>
    rw [step_of_halt hresolve] at hstep
    cases hstep
    exact ⟨rfl, rfl⟩
  | ok action =>
    rw [step_of_resolve hresolve] at hstep
    exact absurd ((perform_late evaluate action m).of_error hstep) hd

/-! ## Assignments -/

theorem bindVariable_answers (index : Nat) (v : Value) (mutability : Mutability) (m : Machine) :
    Ends (fun bound m' => bound = v ∨ ¬ m.scope.Accepts index mutability ∧
        m' = { m with diagnostics := m.diagnostics ++ [.immutableRebind] })
      (fun _ _ => True) (bindVariable index v mutability m) := by
  have hheap : ∀ (f : HeapM Unit) m, Ends (fun _ _ => True) (fun _ _ => True)
      ((onHeap f).adaptExcept ScopeError.heap m) :=
    fun f m => .of_forall (fun _ _ => trivial) (fun _ _ => trivial) _
  refine Ends.bind_get ?_
  cases hlookup : m.scope.lookup index with
  | error e => trivial
  | ok binding =>
    cases binding with
    | none => exact (hheap _ m).bind fun _ _ _ => .inl rfl
    | some old =>
      dsimp only
      split_ifs with hmutable
      · exact (hheap _ m).bind fun _ m₁ _ => (hheap _ m₁).bind fun _ _ _ => .inl rfl
      · refine .inr ⟨?_, rfl⟩
        simpa [Scope.Accepts, hlookup] using hmutable

/-- The machine after a value was not bound: it is gone from the stack, and the refusal is in the queue. -/
def Refused (m : Machine) (v : Value) (m' : Machine) : Prop :=
  ∃ heap', Heap.release v m.heap = .ok () heap' ∧
    m' = { m with heap := heap', stack := m.stack.drop 1, diagnostics := m.diagnostics ++ [.immutableRebind] }

theorem assign_reported (hv : v ≠ .error) (index : Nat) (mutability : Mutability)
    (evaluate : Expression → MachineM Fault Value) :
    Ends (fun _ _ => True) (fun halt m' => halt = .reported → ¬ m.scope.Accepts index mutability ∧ m.Refused v m')
      (perform evaluate (.assign v index mutability) m) := by
  have hbind := bindVariable_answers index v mutability (m.dropped 1)
  refine Ends.bind_modify (Ends.bind (Ends.adaptExcept (hbind.mono (fun _ _ hgood => hgood) ?_)) ?_)
  · rintro e m₁ - ⟨⟩
  · rintro bound m₁ (rfl | ⟨hnot, rfl⟩)
    · rw [if_neg fun hiserror => hv (Value.isError_iff.mp hiserror)]
      trivial
    · split_ifs
      · have hrelease : Ends (fun _ heap' => Heap.release v m.heap = .ok () heap') (fun _ _ => True)
            (Heap.release v m.heap) := by
          cases Heap.release v m.heap with
          | ok u heap' => rfl
          | error e heap' => trivial
        refine bind_onHeap hrelease ?_ ?_
        · intro u heap' hrun _
          exact ⟨hnot, heap', hrun, rfl⟩
        · rintro e heap' - ⟨⟩
      · trivial

theorem resolve_assign (hoperation : i.operation? = some (.assign index mutability)) (hhead : m.stack.head? = some v) :
    Passes (fun action => action = .assign v index mutability) Halt.Own (m.resolve i) := by
  unfold resolve
  rw [hoperation]
  refine (m.top_draws i.opcode).bind fun w hw => ?_
  obtain rfl : w = v := Option.some.inj (hw.1.symm.trans hhead)
  exact rfl

end Machine

/-- **Rejected instructions.** An instruction that is stopped by a diagnostic other than `nestedEvaluation` leaves the
machine as it was, and the diagnostic is about the instruction and what it found. An assignment of a value other than
the error value may also be stopped because the variable is not to be bound again: then the value is popped, one
reference to it is released, and `immutableRebind` is reported. -/
theorem rejected_instruction_inert (evaluate : Expression → MachineM Fault Value) (m : Machine) (i : Instruction) :
    (∀ d m', Machine.step evaluate i m = .error (.diagnostic d) m' → d ≠ .nestedEvaluation →
      d.OfInstruction ∧ m' = m) ∧
    ∀ index mutability v m', i.operation? = some (.assign index mutability) → m.stack.head? = some v → v ≠ .error →
      Machine.step evaluate i m = .error .reported m' →
      ¬ m.scope.Accepts index mutability ∧ ∃ heap', Heap.release v m.heap = .ok () heap' ∧
        m' = { m with heap := heap', stack := m.stack.drop 1, diagnostics := m.diagnostics ++ [.immutableRebind] } := by
  have hdraws := m.resolve_draws i
  refine ⟨fun d m' hstep hd => ?_, fun index mutability v m' hoperation hhead hv hstep => ?_⟩
  · obtain ⟨hresolve, rfl⟩ := Machine.resolve_of_step hstep hd
    rw [hresolve] at hdraws
    exact ⟨hdraws, rfl⟩
  · have hassign := Machine.resolve_assign hoperation hhead
    cases hresolve : m.resolve i with
    | error halt =>
      rw [Machine.step_of_halt hresolve] at hstep
      cases hstep
      rw [hresolve] at hdraws
      exact hdraws.elim
    | ok action =>
      rw [hresolve] at hassign
      obtain rfl : action = .assign v index mutability := hassign
      rw [Machine.step_of_resolve hresolve] at hstep
      exact (Machine.assign_reported hv index mutability evaluate).of_error hstep rfl

/-- An expression, to which there is one reference, is on the stack: it is no tuple, and it is lost when it is not
bound. -/
theorem rejected_instruction_inert_rebind :
    let m : Machine :=
      { heap := .holding quotedSeven
        stack := [.ref .expression ⟨0⟩]
        scope := ⟨#[{ name := "x", binding := some ⟨.integer 1, .immutable⟩ }]⟩ }
    Machine.step Machine.evaluate .tupleArity m =
      .error (.diagnostic (.typeMismatch .tupleArity .tuple .expression)) m ∧
    ∃ m', Machine.step Machine.evaluate (.assignVariable 0 .mutable) m = .error .reported m' ∧
      m'.stack = [] ∧ m'.scope = m.scope ∧ m'.diagnostics = [.immutableRebind] ∧ m'.heap.get? .expression ⟨0⟩ = none ∧
      Heap.release (.ref .expression ⟨0⟩) m.heap = .ok () m'.heap := by
  intro m
  obtain ⟨hrejected, -⟩ := rejected_instruction_inert Machine.evaluate m .tupleArity
  obtain ⟨-, hrefused⟩ := rejected_instruction_inert Machine.evaluate m (.assignVariable 0 .mutable)
  obtain ⟨m₁, htuple⟩ : ∃ m₁, Machine.step Machine.evaluate .tupleArity m =
      .error (.diagnostic (.typeMismatch .tupleArity .tuple .expression)) m₁ := ⟨_, rfl⟩
  have hrebind : Machine.step Machine.evaluate (.assignVariable 0 .mutable) m = .error .reported _ :=
    eq_error_of_outcome (by decide +kernel)
  have hgone : (endState (Machine.step Machine.evaluate (.assignVariable 0 .mutable) m)).heap.get? .expression ⟨0⟩ =
      none := by
    decide +kernel
  refine ⟨?_, _, hrebind, ?_⟩
  · rw [htuple, (hrejected _ m₁ htuple (by decide)).2]
  · obtain ⟨-, heap', hrelease, hend⟩ := hrefused 0 .mutable (.ref .expression ⟨0⟩) _ (by decide +kernel) rfl
      (by decide) hrebind
    rw [hend] at hgone ⊢
    exact ⟨rfl, rfl, rfl, hgone, hrelease⟩

end RefMachine
