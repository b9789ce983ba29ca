import RefMachine.Proofs.Frames
import RefMachine.Proofs.Machine.Lift

/-!
# Callers do not interfere

What an evaluation does is decided by the expression, the heap, the scope, the literals and the depth. The values that
its caller has on the stack decide nothing: two machines that differ only there have the same outcome, the same heap and
scope afterwards, and the same reports, but for the sizes of the stack in them (`evaluation_ignores_caller`).
-/

namespace RefMachine

namespace Machine

variable {m m₁ m₂ : Machine}

/-- The machine as an evaluation sees it: without the caller's stack, and without earlier diagnostics. -/
def grounded (m : Machine) : Machine :=
  { m with stack := [], base := 0, diagnostics := [] }

theorem evaluate_withBase (e : Expression) (m : Machine) (base : Nat) :
    evaluate e { m with base := base } = afterwards (fun m' => { m' with base := base }) (evaluate e m) := by
  change evaluateWithin (m.limits.maxDepth - m.depth) e _ =
    afterwards _ (evaluateWithin (m.limits.maxDepth - m.depth) e m)
  rw [evaluateWithin_eq]
  cases hcode : e.code.isEmpty with
  | true =>
    rw [enter_of_isEmpty hcode, enter_of_isEmpty hcode]
    rfl
  | false =>
    rw [enter_of_code hcode, enter_of_code hcode]
    cases leave m.stack.length (runCode _ e.code { m with base := m.stack.length }) <;> rfl

/-- `evaluate` above the values of a caller goes as it does without them. -/
theorem evaluate_grounded (e : Expression) (m : Machine) :
    evaluate e m = afterwards (fun m' => { m' with base := m.base })
      (lifted m.stack m.diagnostics id (evaluate e m.grounded)) := by
  have hm : m = { m.grounded.atop m.stack m.diagnostics with base := m.base } := by
    simp [grounded, atop]
  have hover : evaluate e (m.grounded.atop m.stack m.diagnostics) =
      lifted m.stack m.diagnostics id (evaluate e m.grounded) :=
    evaluateWithin_atop _ e m.grounded
  rw [← hover, ← evaluate_withBase, ← hm]

end Machine

/-- **Noninterference.** Two machines that differ only in their stacks and in earlier diagnostics have the same outcome
of `evaluate`, and the same heap and scope after it. The new diagnostics are the same but for the stack sizes in them,
which are higher by the size of the machine's own stack, and both stacks are as before below the same values; there are
none of these unless the evaluation ended with a fault. -/
theorem evaluation_ignores_caller {m₁ m₂ : Machine} (hheap : m₁.heap = m₂.heap) (hscope : m₁.scope = m₂.scope)
    (hliterals : m₁.literals = m₂.literals) (hlimits : m₁.limits = m₂.limits) (hdepth : m₁.depth = m₂.depth)
    (e : Expression) :
    outcome (Machine.evaluate e m₁) = outcome (Machine.evaluate e m₂) ∧
      (endState (Machine.evaluate e m₁)).heap = (endState (Machine.evaluate e m₂)).heap ∧
      (endState (Machine.evaluate e m₁)).scope = (endState (Machine.evaluate e m₂)).scope ∧
      ∃ (reports : List Diagnostic) (left : List Value),
        (endState (Machine.evaluate e m₁)).diagnostics =
          m₁.diagnostics ++ reports.map (Diagnostic.raise m₁.stack.length) ∧
        (endState (Machine.evaluate e m₂)).diagnostics =
          m₂.diagnostics ++ reports.map (Diagnostic.raise m₂.stack.length) ∧
        (endState (Machine.evaluate e m₁)).stack = left ++ m₁.stack ∧
        (endState (Machine.evaluate e m₂)).stack = left ++ m₂.stack ∧
        ∀ v, outcome (Machine.evaluate e m₁) = .ok v → left = [] := by
  have hgrounded : m₁.grounded = m₂.grounded := by
    simp only [Machine.grounded, hheap, hscope, hliterals, hlimits, hdepth]
  have hrests := Machine.evaluate_rests e m₂.grounded
  rw [Machine.evaluate_grounded e m₁, Machine.evaluate_grounded e m₂, hgrounded]
  cases hrun : Machine.evaluate e m₂.grounded with
  | ok v m' =>
    refine ⟨rfl, rfl, rfl, m'.diagnostics, m'.stack, rfl, rfl, rfl, rfl, fun _ _ => ?_⟩
    exact (hrests.of_ok hrun).2
  | error f m' =>
    refine ⟨rfl, rfl, rfl, m'.diagnostics, m'.stack, rfl, rfl, rfl, rfl, fun v hv => ?_⟩
    cases hv

/-- An expression that leaves a value too many, alone and above two values of a caller. -/
theorem evaluation_ignores_caller_imbalance :
    let e : Expression := ⟨⟨0⟩, [.loadInteger 7, .loadInteger 8]⟩
    let m₁ : Machine := {}
    let m₂ : Machine := { stack := [.boolean true, .boolean false] }
    (endState (Machine.evaluate e m₁)).diagnostics = [.stackImbalance 0 1] ∧
      (endState (Machine.evaluate e m₂)).diagnostics = [.stackImbalance 2 3] ∧
      outcome (Machine.evaluate e m₁) = outcome (Machine.evaluate e m₂) ∧
      (endState (Machine.evaluate e m₁)).heap = (endState (Machine.evaluate e m₂)).heap := by
  intro e m₁ m₂
  obtain ⟨houtcome, hheap, -⟩ := @evaluation_ignores_caller m₁ m₂ rfl rfl rfl rfl rfl e
  exact ⟨by decide +kernel, by decide +kernel, houtcome, hheap⟩

end RefMachine
