import RefMachine.Proofs.Diagnosis
import RefMachine.Proofs.Machine.Changes
import RefMachine.Proofs.Machine.Reframe
import RefMachine.Proofs.Noninterference

/-!
# The limit on nesting

How deep expressions may be nested matters only where the limit is met. An evaluation that does not report this goes the
same under every higher limit: it ends in the same way and in the same machine (`higher_limit_unnoticed`).

Two runs are compared. An instruction is resolved in the same way under both limits, or it is refused for its depth under
the lower one (`Machine.resolve_limited`). A refusal stops the expression and so is queued, and what is queued stays
(`Machine.respects_queue`): if the queue has no such report at the end, no instruction of any expression was refused.
-/

namespace RefMachine

namespace Machine

variable {ε α : Type} {m m' m₁ : Machine} {i : Instruction} {e : Expression} {floor : List Value} {d : Nat}

/-- The machine with another limit on the nesting. -/
def limited (d : Nat) (m : Machine) : Machine :=
  { m with limits := { m.limits with maxDepth := d } }

theorem Unframed.limited {x : MachineM ε α} (hx : Unframed x) (d : Nat) (m : Machine) :
    x (m.limited d) = afterwards (Machine.limited d) (x m) :=
  hx (fun setting => { setting with limits := { setting.limits with maxDepth := d } }) m

/-! ## Reports stay in the queue -/

/-- None of the queued diagnostics says that an expression was nested too deep. -/
def Shallow (m : Machine) : Prop :=
  ∀ n, .depthExceeded n ∉ m.diagnostics

theorem Shallow.of_queue (hm : m'.Shallow) (hqueue : m.diagnostics <+: m'.diagnostics) : m.Shallow :=
  fun n hmem => hm n (hqueue.subset hmem)

theorem respects_queue : Respects fun m m' => m.diagnostics <+: m'.diagnostics where
  refl m := List.prefix_rfl
  trans := List.IsPrefix.trans
  change hchange := by
    cases hchange with
    | report d => exact List.prefix_append _ _
    | stack | setting | heap | bind => exact List.prefix_rfl

/-- The instructions did not meet the limit: it was not reported, and it is not what stopped them. -/
def Unstopped (r : EStateM.Result Halt Machine Unit) : Prop :=
  Ends (fun _ m' => m'.Shallow) (fun halt m' => m'.Shallow ∧ ∀ n, halt ≠ .diagnostic (.depthExceeded n)) r

theorem unstopped_of_leave {entry : Nat} {r : EStateM.Result Halt Machine Unit}
    (hshallow : (endState (leave entry r)).Shallow) : Unstopped r := by
  cases r with
  | ok u m => exact hshallow.of_queue (respects_queue.takeResult entry m).endState
  | error halt m =>
    cases halt with
    | diagnostic reason =>
      have hreported := hshallow.of_queue
        (respects_queue.abandon entry { m with diagnostics := m.diagnostics ++ [reason] }).endState
      refine ⟨fun n hmem => hreported n (List.mem_append_left _ hmem), fun n hreason => ?_⟩
      cases hreason
      exact hreported n (List.mem_append_right _ List.mem_cons_self)
    | reported =>
      refine ⟨hshallow.of_queue (respects_queue.abandon entry m).endState, fun n hreason => ?_⟩
      cases hreason
    | fault f =>
      refine ⟨hshallow, fun n hreason => ?_⟩
      cases hreason

/-! ## One instruction -/

theorem nestedExpression_limited (hle : m.limits.maxDepth ≤ d) (op : Opcode) (v : Value) :
    (∃ n, m.nestedExpression op v = .error (.diagnostic (.depthExceeded n))) ∨
      (m.limited d).nestedExpression op v = m.nestedExpression op v := by
  unfold nestedExpression
  cases Check.handle op .expression v with
  | error halt => exact .inr rfl
  | ok h =>
    change (∃ n, (if m.limits.maxDepth ≤ m.depth then Check.reject (.depthExceeded m.limits.maxDepth)
      else Check.object m.heap .expression h) = _) ∨
      (if d ≤ m.depth then Check.reject (.depthExceeded d) else Check.object m.heap .expression h) =
        if m.limits.maxDepth ≤ m.depth then Check.reject (.depthExceeded m.limits.maxDepth)
        else Check.object m.heap .expression h
    by_cases hlimit : m.limits.maxDepth ≤ m.depth
    · rw [if_pos hlimit]
      exact .inl ⟨m.limits.maxDepth, rfl⟩
    · have hroom : ¬ d ≤ m.depth := by omega
      rw [if_neg hlimit, if_neg hroom]
      exact .inr rfl

/-- Under a higher limit an instruction resolves to the same, unless it was refused with `depthExceeded`. -/
theorem resolve_limited (hle : m.limits.maxDepth ≤ d) (i : Instruction) :
    (∃ n, m.resolve i = .error (.diagnostic (.depthExceeded n))) ∨ (m.limited d).resolve i = m.resolve i := by
  unfold resolve
  cases i.operation? with
  | none => exact .inr rfl
  | some operation =>
    cases operation with
    | evaluateExpression =>
      change (∃ n, m.resolveOperation i.opcode .evaluateExpression = _) ∨
        (m.limited d).resolveOperation i.opcode .evaluateExpression = m.resolveOperation i.opcode .evaluateExpression
      have hoperation : ∀ m : Machine, m.resolveOperation i.opcode .evaluateExpression =
          m.top i.opcode >>= fun v => m.nestedExpression i.opcode v >>= fun e => .ok (.evaluate v e) := fun _ => rfl
      have htop : (m.limited d).top i.opcode = m.top i.opcode := rfl
      rw [hoperation, hoperation, htop]
      cases m.top i.opcode with
      | error halt => exact .inr rfl
      | ok v =>
        change (∃ n, (m.nestedExpression i.opcode v >>= _) = _) ∨ ((m.limited d).nestedExpression i.opcode v >>= _) =
          m.nestedExpression i.opcode v >>= _
        rcases nestedExpression_limited hle i.opcode v with ⟨n, hexceeds⟩ | hsame
        · rw [hexceeds]
          exact .inl ⟨n, rfl⟩
        · rw [hsame]
          exact .inr rfl
    | _ => exact .inr rfl

/-- A higher limit makes no difference to the evaluations that report no excess of depth. -/
def Indifferent (d : Nat) (m : Machine) : Prop :=
  ∀ e, (endState (evaluate e m)).Shallow → evaluate e (m.limited d) = afterwards (limited d) (evaluate e m)

/-- So it is one level below the machine, unless that is too deep. -/
def IndifferentBelow (d : Nat) (m : Machine) : Prop :=
  ∀ m₁ : Machine, m₁.limits = m.limits → m₁.depth = m.depth + 1 → m.depth < m.limits.maxDepth → m₁.Indifferent d

theorem ascend_limited (d : Nat) (r : EStateM.Result Fault Machine Value) :
    ascend (afterwards (limited d) r) = afterwards (limited d) (ascend r) := by
  cases r with
  | error f m => rfl
  | ok v m =>
    simp only [afterwards, ascend]
    split_ifs <;> rfl

theorem shallow_of_ascend {r : EStateM.Result Fault Machine Value} (hr : Unstopped (ascend r)) :
    (endState r).Shallow := by
  cases r with
  | error f m => exact hr.1
  | ok v m =>
    simp only [ascend] at hr
    split_ifs at hr
    · exact hr.1
    · exact hr

theorem step_limited (hle : m.limits.maxDepth ≤ d) (hbelow : m.IndifferentBelow d)
    (hunstopped : Unstopped (step evaluate i m)) :
    step evaluate i (m.limited d) = afterwards (limited d) (step evaluate i m) := by
  have hdraws := m.resolve_draws i
  cases hresolve : m.resolve i with
  | error halt =>
    rw [step_of_halt hresolve] at hunstopped
    rcases resolve_limited hle i with ⟨n, hexceeds⟩ | hsame
    · cases hresolve.symm.trans hexceeds
      exact absurd rfl (hunstopped.2 n)
    · rw [step_of_halt hresolve, step_of_halt (hsame.trans hresolve)]
      rfl
  | ok action =>
    rw [hresolve] at hdraws
    have hresolve' : (m.limited d).resolve i = .ok action := by
      rcases resolve_limited hle i with ⟨n, hexceeds⟩ | hsame
      · cases hresolve.symm.trans hexceeds
      · exact hsame.trans hresolve
    by_cases hnesting : action.Nesting
    · cases action with
      | evaluate handle e =>
        cases hrelease : Heap.release handle m.heap with
        | error err heap₁ =>
          have hrelease' : Heap.release handle (m.limited d).heap = .error err heap₁ := hrelease
          rw [step_of_resolve hresolve, step_of_resolve hresolve', perform_evaluate_of_error hrelease,
            perform_evaluate_of_error hrelease']
          rfl
        | ok u heap₁ =>
          have hcall := call?_eq_some_iff.mpr ⟨handle, heap₁, hresolve, hrelease, rfl⟩
          have hcall' := call?_eq_some_iff.mpr ⟨handle, heap₁, hresolve', hrelease, rfl⟩
          obtain ⟨hlimits, hdepth, hlt⟩ := call?_deeper hcall
          rw [step_of_call hcall] at hunstopped ⊢
          have hnested := hbelow _ hlimits hdepth hlt e (shallow_of_ascend hunstopped)
          rw [step_of_call hcall', ← ascend_limited, ← hnested]
          rfl
      | _ => exact hnesting.elim
    · rw [step_of_resolve hresolve, step_of_resolve hresolve']
      exact @perform_adjust m action (fun setting => { setting with limits := { setting.limits with maxDepth := d } })
        hnesting hdraws.arity_le hdraws.arity_le evaluate

/-! ## Whole evaluations -/

theorem Rests.indifferentBelow (hm : m.Rests floor m') (hbelow : m.IndifferentBelow d) : m'.IndifferentBelow d := by
  unfold IndifferentBelow
  rw [hm.limits_eq, hm.depth_eq]
  exact hbelow

theorem runCode_limited {code : List Instruction} (hle : m.limits.maxDepth ≤ d) (hbelow : m.IndifferentBelow d)
    (hbase : m.base = floor.length) (hfloor : floor <:+ m.stack) (hunstopped : Unstopped (runCode evaluate code m)) :
    runCode evaluate code (m.limited d) = afterwards (limited d) (runCode evaluate code m) := by
  induction code generalizing m with
  | nil => rfl
  | cons i rest ih =>
    rw [runCode] at hunstopped ⊢
    cases hrun : step evaluate i m with
    | error halt m₁ =>
      rw [bind_apply_of_error hrun, ← hrun] at hunstopped
      have hstep := step_limited hle hbelow hunstopped
      rw [hrun] at hstep
      rw [bind_apply_of_error hrun, bind_apply_of_error hstep]
      rfl
    | ok u m₁ =>
      rw [bind_apply_of_ok hrun] at hunstopped
      have hshallow : (endState (runCode evaluate rest m₁)).Shallow := by
        cases hrest : runCode evaluate rest m₁ with
        | ok u m₂ => exact hunstopped.of_ok hrest
        | error halt m₂ => exact (hunstopped.of_error hrest).1
      have hfirst : Unstopped (step evaluate i m) := by
        rw [hrun]
        exact hshallow.of_queue (respects_queue.runCode respects_queue.evaluate rest m₁).endState
      have hstep := step_limited hle hbelow hfirst
      rw [hrun] at hstep
      have hm₁ := (step_evaluate_rests hbase hfloor i).of_ok hrun
      rw [bind_apply_of_ok hrun, bind_apply_of_ok hstep]
      exact ih (hm₁.limits_eq ▸ hle) (hm₁.indifferentBelow hbelow) (hm₁.base_eq.trans hbase) hm₁.suffix hunstopped

theorem unframed_abandon (entry : Nat) : Unframed (abandon entry) := by
  have hunwind : Unframed (unwindTo entry) :=
    .get_bind (fun m => (unframed_discard _).adaptExcept _) fun _ _ => rfl
  exact hunwind.bind fun _ => unframed_pure _

theorem unframed_takeResult (entry : Nat) : Unframed (takeResult entry) := by
  refine .get_bind (fun m => ?_) fun _ _ => rfl
  dsimp only
  split_ifs
  · exact (unframed_report _).bind fun _ => unframed_pure _
  · exact unframed_pop?.bind fun v => unframed_pure _
  · refine unframed_pop?.bind fun v => (unframed_report _).bind fun _ => ?_
    exact ((unframed_onHeap _).adaptExcept _).bind fun _ => unframed_abandon entry

theorem leave_limited (d entry : Nat) (r : EStateM.Result Halt Machine Unit) :
    leave entry (afterwards (limited d) r) = afterwards (limited d) (leave entry r) := by
  cases r with
  | ok u m => exact (unframed_takeResult entry).limited d m
  | error halt m =>
    cases halt with
    | diagnostic reason => exact ((unframed_report reason).bind fun _ => unframed_abandon entry).limited d m
    | reported => exact (unframed_abandon entry).limited d m
    | fault f => rfl

theorem indifferent_of_below (hle : m.limits.maxDepth ≤ d) (hbelow : m.IndifferentBelow d) : m.Indifferent d := by
  intro e hshallow
  rw [evaluate_eq] at hshallow ⊢
  rw [evaluate_eq]
  cases hcode : e.code.isEmpty with
  | true =>
    rw [enter_of_isEmpty hcode, enter_of_isEmpty hcode]
    rfl
  | false =>
    rw [enter_of_code hcode] at hshallow ⊢
    have hleave : (endState (leave m.stack.length
        (runCode evaluate e.code { m with base := m.stack.length }))).Shallow := by
      cases hrun : leave m.stack.length (runCode evaluate e.code { m with base := m.stack.length }) with
      | ok v m' =>
        rw [hrun] at hshallow
        exact hshallow
      | error f m' =>
        rw [hrun] at hshallow
        exact hshallow
    have hcode' := @runCode_limited { m with base := m.stack.length } m.stack d e.code hle hbelow rfl
      (List.suffix_refl _) (unstopped_of_leave hleave)
    have hopened : { m.limited d with base := (m.limited d).stack.length } =
        { m with base := m.stack.length }.limited d := rfl
    rw [enter_of_code hcode, hopened, hcode']
    change afterwards _ (leave m.stack.length _) = _
    rw [leave_limited]
    cases leave m.stack.length (runCode evaluate e.code { m with base := m.stack.length }) <;> rfl

theorem indifferent (hle : m.limits.maxDepth ≤ d) : m.Indifferent d := by
  -- By induction on the levels that are left below the machine.
  generalize hroom : m.limits.maxDepth - m.depth = room
  induction room generalizing m with
  | zero =>
    apply indifferent_of_below hle
    intro m₁ hlimits hdepth hlt
    omega
  | succ room ih =>
    apply indifferent_of_below hle
    intro m₁ hlimits hdepth hlt
    apply ih (hlimits ▸ hle)
    rw [hlimits, hdepth]
    omega

theorem diagnostics_evaluate (e : Expression) (m : Machine) : (endState (evaluate e m)).diagnostics =
    m.diagnostics ++ (endState (evaluate e m.grounded)).diagnostics.map (Diagnostic.raise m.stack.length) := by
  rw [evaluate_grounded]
  cases evaluate e m.grounded <;> rfl

end Machine

/-- **Only a report shows the limit.** If an evaluation queues no `depthExceeded`, it has the same outcome under a
higher `maxDepth`, and it ends in the same machine but for the limit: with the same stack, heap and scope, and with the
same diagnostics queued. -/
theorem higher_limit_unnoticed {d d' : Nat} (hle : d ≤ d') (m : Machine) (e : Expression)
    (hnone : ∀ n, .depthExceeded n ∉
      (endState (Machine.evaluate e (m.limited d))).diagnostics.drop m.diagnostics.length) :
    outcome (Machine.evaluate e (m.limited d')) = outcome (Machine.evaluate e (m.limited d)) ∧
      endState (Machine.evaluate e (m.limited d')) = (endState (Machine.evaluate e (m.limited d))).limited d' := by
  have hshallow : (endState (Machine.evaluate e (m.limited d).grounded)).Shallow := by
    intro n hmem
    apply hnone n
    rw [Machine.diagnostics_evaluate]
    change _ ∈ (m.diagnostics ++ _).drop m.diagnostics.length
    rw [List.drop_left]
    exact List.mem_map.mpr ⟨_, hmem, rfl⟩
  have hsame : Machine.evaluate e (m.limited d').grounded = _ :=
    @Machine.indifferent (m.limited d).grounded d' hle e hshallow
  rw [Machine.evaluate_grounded e (m.limited d'), Machine.evaluate_grounded e (m.limited d), hsame]
  cases Machine.evaluate e (m.limited d).grounded with
  | ok v m' => exact ⟨rfl, rfl⟩
  | error f m' => exact ⟨rfl, rfl⟩

/-- An expression that needs one level fails there in the same way under limits of 1 and 256, and in another under a
limit of 0. The queue starts with an older report of the limit. -/
theorem higher_limit_unnoticed_underflow :
    (endState (Machine.evaluate quotedUnderflow (Machine.limited 0 { diagnostics := [.depthExceeded 9] }))).diagnostics =
      [.depthExceeded 9, .depthExceeded 0] ∧
    (endState (Machine.evaluate quotedUnderflow (Machine.limited 1 { diagnostics := [.depthExceeded 9] }))).diagnostics =
      [.depthExceeded 9, .stackUnderflow .listHead, .nestedEvaluation] ∧
    outcome (Machine.evaluate quotedUnderflow (Machine.limited 256 { diagnostics := [.depthExceeded 9] })) =
      outcome (Machine.evaluate quotedUnderflow (Machine.limited 1 { diagnostics := [.depthExceeded 9] })) ∧
    (endState (Machine.evaluate quotedUnderflow (Machine.limited 256 { diagnostics := [.depthExceeded 9] }))).diagnostics =
      [.depthExceeded 9, .stackUnderflow .listHead, .nestedEvaluation] := by
  have hreports : (endState (Machine.evaluate quotedUnderflow
      (Machine.limited 1 { diagnostics := [.depthExceeded 9] }))).diagnostics =
      [.depthExceeded 9, .stackUnderflow .listHead, .nestedEvaluation] := by
    decide +kernel
  have hnone : ∀ n, .depthExceeded n ∉ (endState (Machine.evaluate quotedUnderflow
      (Machine.limited 1 { diagnostics := [.depthExceeded 9] }))).diagnostics.drop 1 := by
    intro n
    rw [hreports]
    simp
  obtain ⟨houtcome, hend⟩ := @higher_limit_unnoticed 1 256 (by decide) { diagnostics := [.depthExceeded 9] }
    quotedUnderflow hnone
  refine ⟨by decide +kernel, hreports, houtcome, ?_⟩
  rw [hend]
  exact hreports

end RefMachine
