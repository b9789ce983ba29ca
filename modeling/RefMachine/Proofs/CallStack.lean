import RefMachine.Proofs.Frames
import Mathlib.Logic.Function.Iterate

/-!
# Evaluation with a call stack

The same evaluation by a machine that does one thing at a time. The expressions that have been entered and not yet left
are on an explicit stack, each with the instructions that are left of it, and `advance` carries out one instruction,
enters one expression or leaves one. An expression may call itself through a variable, and nothing in the definition
says that this comes to an end.

It does: whatever the heap and the variables hold, the machine comes to the outcome of the evaluation. The argument is by
induction on the levels that are left and, in each frame, on the instructions that are left. On the way there are never
more frames than levels, and so an evaluator that spends fuel on frames has no use for more (`evaluation_terminates`).
-/

namespace RefMachine

namespace Machine

variable {m m₁ : Machine} {floor : List Value}

/-- An expression that has been entered: the instructions that are left of it, the size of the stack that it was entered
with, and where the frame of its caller starts. -/
structure Activation where
  code : List Instruction
  entry : Nat
  outer : Nat

/-- What an activation comes to, once its instructions have run or one has stopped it. -/
def Activation.finish (a : Activation) (r : EStateM.Result Halt Machine Unit) : EStateM.Result Fault Machine Value :=
  afterwards (fun m => { m with base := a.outer }) (leave a.entry r)

/-- What the machine with a call stack is about to do: enter an expression, go on with an activation, or hand an outcome
to the innermost of the callers. -/
inductive Configuration where
  | entering (e : Expression) (m : Machine) (callers : List Activation)
  | running (m : Machine) (active : Activation) (callers : List Activation)
  | leaving (r : EStateM.Result Fault Machine Value) (callers : List Activation)

namespace Configuration

/-- The number of evaluations under way. -/
def frames : Configuration → Nat
  | .entering _ _ callers | .running _ _ callers => callers.length + 1
  | .leaving _ callers => callers.length

/-- Goes on with an activation after one of its instructions. -/
def resume (a : Activation) (callers : List Activation) : EStateM.Result Halt Machine Unit → Configuration
  | .ok () m => .running m a callers
  | .error halt m => .leaving (a.finish (.error halt m)) callers

/-- Does one thing. An instruction that calls a nested expression leaves the rest of its own to be resumed. -/
def advance : Configuration → Configuration
  | .entering e m callers =>
    if e.code.isEmpty then .leaving (.ok .error m) callers
    else .running { m with base := m.stack.length } ⟨e.code, m.stack.length, m.base⟩ callers
  | .running m ⟨[], entry, outer⟩ callers => .leaving (Activation.finish ⟨[], entry, outer⟩ (.ok () m)) callers
  | .running m ⟨i :: rest, entry, outer⟩ callers =>
    match m.call? i with
    | some (e, m₁) => .entering e m₁ (⟨rest, entry, outer⟩ :: callers)
    | none => resume ⟨rest, entry, outer⟩ callers (step (fun _ => pure .error) i m)
  | .leaving r (a :: callers) => resume a callers (ascend r)
  | .leaving r [] => .leaving r []

/-- The machine comes from the configuration `c` to `c'`, and has at most `bound` frames all the way. -/
inductive Leads (bound : Nat) : Configuration → Configuration → Prop where
  | refl {c : Configuration} (hc : c.frames ≤ bound) : Leads bound c c
  | step {c c' : Configuration} (hc : c.frames ≤ bound) (hrest : Leads bound c.advance c') : Leads bound c c'

variable {bound : Nat} {c c' c'' : Configuration} {a : Activation} {callers : List Activation}

theorem Leads.trans (h : Leads bound c c') (h' : Leads bound c' c'') : Leads bound c c'' := by
  induction h with
  | refl _ => exact h'
  | step hc _ ih => exact .step hc (ih h')

theorem frames_resume_le (r : EStateM.Result Halt Machine Unit) : (resume a callers r).frames ≤ callers.length + 1 := by
  cases r with
  | ok _ m => exact Nat.le_refl _
  | error halt m => exact Nat.le_succ _

theorem advance_of_call {i : Instruction} {e : Expression} (hcall : m.call? i = some (e, m₁)) :
    advance (.running m { a with code := i :: a.code } callers) = .entering e m₁ (a :: callers) := by
  simp only [advance, hcall]

theorem advance_of_not_call {i : Instruction} (hcall : m.call? i = none) :
    advance (.running m { a with code := i :: a.code } callers) = resume a callers (step evaluate i m) := by
  simp only [advance, hcall, step_of_not_call hcall evaluate fun _ => pure .error]

theorem iterate_leaving (r : EStateM.Result Fault Machine Value) (n : Nat) :
    advance^[n] (.leaving r []) = .leaving r [] :=
  Function.iterate_fixed rfl n

theorem Leads.done {r : EStateM.Result Fault Machine Value} (h : Leads bound c (.leaving r [])) :
    (∃ n, advance^[n] c = .leaving r []) ∧ ∀ n, (advance^[n] c).frames ≤ bound := by
  generalize hend : Configuration.leaving r [] = c' at h
  induction h with
  | refl hc =>
    subst hend
    refine ⟨⟨0, rfl⟩, ?_⟩
    intro n
    rw [iterate_leaving]
    exact hc
  | step hc hrest ih =>
    obtain ⟨⟨n, hn⟩, hframes⟩ := ih hend
    refine ⟨⟨n + 1, hn⟩, ?_⟩
    intro k
    cases k with
    | zero => exact hc
    | succ k => exact hframes k

theorem instruction_leads {i : Instruction} (hframes : callers.length + 1 ≤ bound)
    (hcall : ∀ e m₁, m.call? i = some (e, m₁) →
      Leads bound (.entering e m₁ (a :: callers)) (.leaving (evaluate e m₁) (a :: callers))) :
    Leads bound (.running m { a with code := i :: a.code } callers) (resume a callers (step evaluate i m)) := by
  have hresume : ∀ r, Leads bound (resume a callers r) (resume a callers r) :=
    fun r => .refl ((frames_resume_le r).trans hframes)
  refine .step hframes ?_
  cases hnext : m.call? i with
  | none =>
    rw [advance_of_not_call hnext]
    exact hresume _
  | some call =>
    obtain ⟨e, m₁⟩ := call
    rw [advance_of_call hnext, step_of_call hnext]
    exact (hcall e m₁ hnext).trans (.step hframes (hresume _))

theorem running_leads {code : List Instruction} {entry outer : Nat} (hframes : callers.length + 1 ≤ bound)
    (hbase : m.base = floor.length) (hfloor : floor <:+ m.stack)
    (hnested : ∀ e m₁ a, m₁.limits = m.limits → m₁.depth = m.depth + 1 → m.depth < m.limits.maxDepth →
      Leads bound (.entering e m₁ (a :: callers)) (.leaving (evaluate e m₁) (a :: callers))) :
    Leads bound (.running m ⟨code, entry, outer⟩ callers)
      (.leaving (Activation.finish ⟨[], entry, outer⟩ (runCode evaluate code m)) callers) := by
  induction code generalizing m with
  | nil => exact .step hframes (.refl (Nat.le_of_succ_le hframes))
  | cons i rest ih =>
    have hstep := @instruction_leads m bound ⟨rest, entry, outer⟩ callers i hframes fun e m₁ hcall => by
      obtain ⟨hlimits, hdepth, hlt⟩ := call?_deeper hcall
      exact hnested e m₁ _ hlimits hdepth hlt
    refine hstep.trans ?_
    rw [runCode]
    cases hrun : step evaluate i m with
    | error halt m₁ =>
      rw [bind_apply_of_error hrun]
      exact .refl (Nat.le_of_succ_le hframes)
    | ok u m₁ =>
      have hm₁ := (step_evaluate_rests hbase hfloor i).of_ok hrun
      rw [bind_apply_of_ok hrun]
      refine ih (hm₁.base_eq.trans hbase) hm₁.suffix ?_
      rw [hm₁.limits_eq, hm₁.depth_eq]
      exact hnested

theorem entering_leads (e : Expression) (hframes : callers.length + 1 ≤ bound)
    (hnested : ∀ e m₁ a, m₁.limits = m.limits → m₁.depth = m.depth + 1 → m.depth < m.limits.maxDepth →
      Leads bound (.entering e m₁ (a :: callers)) (.leaving (evaluate e m₁) (a :: callers))) :
    Leads bound (.entering e m callers) (.leaving (evaluate e m) callers) := by
  refine .step hframes ?_
  rw [evaluate_eq]
  cases hcode : e.code.isEmpty with
  | true =>
    rw [advance, if_pos hcode, enter_of_isEmpty hcode]
    exact .refl (Nat.le_of_succ_le hframes)
  | false =>
    have hnot : ¬ e.code.isEmpty = true := by simp [hcode]
    rw [advance, if_neg hnot, enter_of_code hcode]
    exact running_leads hframes rfl (List.suffix_refl m.stack) hnested

/-- With at most `room` levels left, the machine with a call stack leads from entering an expression to leaving it with
the result of `evaluate`. -/
theorem evaluation_leads {room : Nat} (e : Expression) (m : Machine) (callers : List Activation)
    (hroom : m.limits.maxDepth - m.depth ≤ room) (hbound : callers.length + room + 1 ≤ bound) :
    Leads bound (.entering e m callers) (.leaving (evaluate e m) callers) := by
  induction room generalizing e m callers with
  | zero =>
    refine entering_leads e (by omega) ?_
    intro e' m₁ a hlimits hdepth hlt
    omega
  | succ room ih =>
    refine entering_leads e (by omega) ?_
    intro e' m₁ a hlimits hdepth hlt
    apply ih
    · rw [hlimits, hdepth]
      omega
    · rw [List.length_cons]
      omega

end Configuration

/-- Evaluates an expression with fuel for so many frames, that of the expression itself included. What is done without
fuel is up to `exhausted`. -/
def evaluateFueled (exhausted : Expression → MachineM Fault Value) : (fuel : Nat) → Expression → MachineM Fault Value
  | 0 => exhausted
  | fuel + 1 => enter (evaluateFueled exhausted fuel)

theorem evaluateFueled_eq {exhausted : Expression → MachineM Fault Value} {fuel : Nat} (e : Expression) (m : Machine)
    (hfuel : m.limits.maxDepth - m.depth + 1 ≤ fuel) : evaluateFueled exhausted fuel e m = evaluate e m := by
  induction fuel generalizing e m with
  | zero => omega
  | succ fuel ih =>
    have hagree : m.AgreeBelow (evaluateFueled exhausted fuel) evaluate := by
      intro e' m₁ hlimits hdepth hlt
      apply ih
      rw [hlimits, hdepth]
      omega
    rw [evaluateFueled, enter_congr hagree, evaluate_eq]

end Machine

/-- **Termination.** The machine with a call stack comes from entering an expression to the result of `evaluate`, with
no more frames than one for each level from the present depth to the largest. With fuel for as many frames, or more,
nothing depends on what is done when the fuel runs out. -/
theorem evaluation_terminates (m : Machine) (e : Expression) :
    (∃ n, Machine.Configuration.advance^[n] (.entering e m []) = .leaving (Machine.evaluate e m) []) ∧
    (∀ n, (Machine.Configuration.advance^[n] (.entering e m [])).frames ≤ m.limits.maxDepth - m.depth + 1) ∧
    ∀ exhausted fuel, m.limits.maxDepth - m.depth + 1 ≤ fuel →
      Machine.evaluateFueled exhausted fuel e m = Machine.evaluate e m := by
  have hbound : ([] : List Machine.Activation).length + (m.limits.maxDepth - m.depth) + 1 ≤
      m.limits.maxDepth - m.depth + 1 := by simp
  obtain ⟨hends, hframes⟩ := (Machine.Configuration.evaluation_leads e m [] (Nat.le_refl _) hbound).done
  refine ⟨hends, hframes, ?_⟩
  intro exhausted fuel hfuel
  exact Machine.evaluateFueled_eq e m hfuel

/-- Evaluates the expression that the first variable is bound to. -/
def evaluatesFirst : Expression :=
  ⟨Ty.integer.tag, [.readVariable 0, .evaluateExpression]⟩

/-- A machine with two levels, whose first variable is bound to an expression that evaluates it. -/
def selfBound : Machine where
  heap := .holding evaluatesFirst
  scope := ⟨#[{ name := "self", binding := some ⟨.ref .expression ⟨0⟩, .immutable⟩ }]⟩
  limits := { maxDepth := 2 }

/-- An expression that evaluates itself is stopped at the largest depth, where there are as many frames as there may be,
and three units of fuel are enough for it. -/
theorem evaluation_terminates_self_bound :
    (∃ n, (Machine.Configuration.advance^[n] (.entering evaluatesFirst selfBound [])).frames = 3) ∧
    (∀ n, (Machine.Configuration.advance^[n] (.entering evaluatesFirst selfBound [])).frames ≤ 3) ∧
    outcome (Machine.evaluate evaluatesFirst selfBound) = .ok .error ∧
    ∀ exhausted, Machine.evaluateFueled exhausted 3 evaluatesFirst selfBound =
      Machine.evaluate evaluatesFirst selfBound := by
  obtain ⟨-, hframes, hfueled⟩ := evaluation_terminates selfBound evaluatesFirst
  refine ⟨⟨6, ?_⟩, hframes, ?_, fun exhausted => hfueled exhausted 3 ?_⟩
  · decide +kernel
  · decide +kernel
  · decide +kernel

end RefMachine
