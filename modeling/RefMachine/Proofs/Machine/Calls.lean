import RefMachine.Proofs.Machine.Draws
import RefMachine.Proofs.Machine.Evaluate

/-!
# Calls

An instruction that evaluates a nested expression first checks the depth and releases the handle to it. If that succeeds
the instruction is a call: its outcome is that of the nested evaluation, as the caller sees it (`step_of_call`). Every
other instruction does the same however nested expressions are evaluated (`step_of_not_call`), and so two ways to
evaluate them need only agree on the calls that are made (`step_congr`).
-/

namespace RefMachine

namespace Machine

variable {m m₁ : Machine} {i : Instruction} {e : Expression} {evaluate evaluate' : Expression → MachineM Fault Value}

theorem perform_evaluate_of_error {handle : Value} {err : HeapError} {heap₁ : Heap}
    (hrelease : Heap.release handle m.heap = .error err heap₁) (evaluate : Expression → MachineM Fault Value)
    (e : Expression) :
    perform evaluate (.evaluate handle e) m = .error (.fault (.heap err)) { m.dropped 1 with heap := heap₁ } := by
  change EStateM.bind (faulting (Heap.release handle)) _ (m.dropped 1) = _
  unfold EStateM.bind faulting EStateM.adaptExcept
  rw [onHeap_eq, hrelease]

theorem perform_congr {action : Action} (haction : ∀ handle e, action ≠ .evaluate handle e)
    (evaluate evaluate' : Expression → MachineM Fault Value) : perform evaluate action = perform evaluate' action := by
  cases action with
  | evaluate handle e => exact absurd rfl (haction handle e)
  | _ => rfl

theorem resolve_evaluateExpression {h : Handle} {below : List Value} (htop : m.frame = .ref .expression h :: below) :
    m.resolve .evaluateExpression =
      (if m.limits.maxDepth ≤ m.depth then Check.reject (.depthExceeded m.limits.maxDepth)
        else Check.object m.heap .expression h) >>= fun e => .ok (.evaluate (.ref .expression h) e) := by
  change (m.top .evaluateExpression >>= fun v => m.nestedExpression .evaluateExpression v >>= fun e =>
    .ok (Action.evaluate v e)) = _
  rw [top, htop]
  rfl

/-- The nested expression that an instruction calls, and the machine in which it is entered. -/
def call? (m : Machine) (i : Instruction) : Option (Expression × Machine) :=
  match m.resolve i with
  | .ok (.evaluate handle e) =>
    match Heap.release handle m.heap with
    | .ok () heap₁ => some (e, m.descended heap₁)
    | .error _ _ => none
  | _ => none

/-- What the outcome of a nested evaluation is to the caller. -/
def ascend : EStateM.Result Fault Machine Value → EStateM.Result Halt Machine Unit
  | .ok v m =>
    if v.isError then .error (.diagnostic .nestedEvaluation) { m with depth := m.depth - 1 }
    else .ok () { m with stack := v :: m.stack, depth := m.depth - 1 }
  | .error f m => .error (.fault f) { m with depth := m.depth - 1 }

theorem ascend_eq_ok_iff {r : EStateM.Result Fault Machine Value} : ascend r = .ok () m₁ ↔
    ∃ v m₂, r = .ok v m₂ ∧ v ≠ .error ∧ m₁ = { m₂ with stack := v :: m₂.stack, depth := m₂.depth - 1 } := by
  cases r with
  | error f m₂ => simp [ascend]
  | ok v m₂ =>
    by_cases hv : v = .error
    · simp [ascend, hv, Value.isError]
    · have hnot : ¬ v.isError = true := fun hiserror => hv (Value.isError_iff.mp hiserror)
      simp [ascend, hv, hnot, eq_comm]

theorem call?_eq_some_iff : m.call? i = some (e, m₁) ↔
    ∃ handle heap₁, m.resolve i = .ok (.evaluate handle e) ∧ Heap.release handle m.heap = .ok () heap₁ ∧
      m₁ = m.descended heap₁ := by
  unfold call?
  constructor
  · intro hcall
    split at hcall
    · rename_i handle e' hresolve
      split at hcall
      · rename_i heap₁ hrelease
        cases hcall
        exact ⟨handle, heap₁, hresolve, hrelease, rfl⟩
      · cases hcall
    · cases hcall
  · rintro ⟨handle, heap₁, hresolve, hrelease, rfl⟩
    rw [hresolve]
    dsimp only
    rw [hrelease]

theorem step_of_call (hcall : m.call? i = some (e, m₁)) (evaluate : Expression → MachineM Fault Value) :
    step evaluate i m = ascend (evaluate e m₁) := by
  obtain ⟨handle, heap₁, hresolve, hrelease, rfl⟩ := call?_eq_some_iff.mp hcall
  rw [step_of_resolve hresolve, perform_evaluate hrelease]
  cases evaluate e (m.descended heap₁) <;> rfl

theorem release_of_not_call {handle : Value} (hcall : m.call? i = none)
    (hresolve : m.resolve i = .ok (.evaluate handle e)) :
    ∃ err heap₁, Heap.release handle m.heap = .error err heap₁ := by
  cases hrelease : Heap.release handle m.heap with
  | error err heap₁ => exact ⟨err, heap₁, rfl⟩
  | ok u heap₁ =>
    rw [call?_eq_some_iff.mpr ⟨handle, heap₁, hresolve, hrelease, rfl⟩] at hcall
    cases hcall

theorem step_of_not_call (hcall : m.call? i = none) (evaluate evaluate' : Expression → MachineM Fault Value) :
    step evaluate i m = step evaluate' i m := by
  cases hresolve : m.resolve i with
  | error halt => rw [step_of_halt hresolve, step_of_halt hresolve]
  | ok action =>
    rw [step_of_resolve hresolve, step_of_resolve hresolve]
    by_cases haction : ∃ handle e, action = .evaluate handle e
    · obtain ⟨handle, e, rfl⟩ := haction
      obtain ⟨err, heap₁, hrelease⟩ := release_of_not_call hcall hresolve
      rw [perform_evaluate_of_error hrelease, perform_evaluate_of_error hrelease]
    · rw [perform_congr fun handle e heq => haction ⟨handle, e, heq⟩]

/-- Two ways to evaluate nested expressions agree one level below a machine, unless that is too deep. -/
def AgreeBelow (m : Machine) (evaluate evaluate' : Expression → MachineM Fault Value) : Prop :=
  ∀ e m₁, m₁.limits = m.limits → m₁.depth = m.depth + 1 → m.depth < m.limits.maxDepth → evaluate e m₁ = evaluate' e m₁

theorem call?_deeper (hcall : m.call? i = some (e, m₁)) :
    m₁.limits = m.limits ∧ m₁.depth = m.depth + 1 ∧ m.depth < m.limits.maxDepth := by
  obtain ⟨handle, heap₁, hresolve, -, rfl⟩ := call?_eq_some_iff.mp hcall
  have hdraws := m.resolve_draws i
  rw [hresolve] at hdraws
  exact ⟨rfl, rfl, hdraws.depth_lt trivial⟩

theorem step_congr (hagree : m.AgreeBelow evaluate evaluate') (i : Instruction) :
    step evaluate i m = step evaluate' i m := by
  cases hcall : m.call? i with
  | none => exact step_of_not_call hcall evaluate evaluate'
  | some call =>
    obtain ⟨e, m₁⟩ := call
    obtain ⟨hlimits, hdepth, hlt⟩ := call?_deeper hcall
    rw [step_of_call hcall, step_of_call hcall, hagree e m₁ hlimits hdepth hlt]

end Machine

end RefMachine
