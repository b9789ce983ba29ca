import RefMachine.Proofs.Frames
import RefMachine.Proofs.Machine.Reframe

/-!
# Inlining

Where an instruction evaluates an expression with success, the instructions of that expression may as well be carried
out in its place, in the frame of the caller (`evaluation_inlines`). They find more values in that frame and more levels
left for nested expressions, and an instruction that succeeds with fewer succeeds with more. The expression yields a
value only if its instructions leave that value alone above the stack (`runCode_of_evaluate`), so that nothing is left
to do at its end.
-/

namespace RefMachine

namespace Machine

variable {m m' : Machine} {v : Value} {e : Expression} {floor : List Value} {base depth : Nat}

/-! ## Yielding a value -/

theorem abandon_yields (entry : Nat) (m : Machine) :
    Ends (fun v _ => v = .error) (fun _ _ => True) (abandon entry m) := by
  have hunwind : Ends (fun _ _ => True) (fun _ _ => True) (unwindTo entry m) :=
    .of_forall (fun _ _ => trivial) (fun _ _ => trivial) _
  exact hunwind.bind fun _ _ _ => rfl

/-- How a value other than the error value comes to be yielded. -/
def Yields (entry : Nat) (r : EStateM.Result Halt Machine Unit) (v : Value) (m' : Machine) : Prop :=
  ∃ m₁ rest, r = .ok () m₁ ∧ m₁.stack = v :: rest ∧ rest.length = entry ∧ m' = { m₁ with stack := rest }

theorem takeResult_yields (entry : Nat) (m : Machine) :
    Ends (fun v m' => v = .error ∨ Yields entry (.ok () m) v m') (fun _ _ => True) (takeResult entry m) := by
  by_cases hsize : m.stack.length ≤ entry
  · change Ends _ _ ((if m.stack.length ≤ entry then _ else _ : MachineM Fault Value) m)
    rw [if_pos hsize]
    exact .inl rfl
  · cases hstack : m.stack with
    | nil => simp [hstack] at hsize
    | cons v rest =>
      rw [hstack, List.length_cons] at hsize
      rw [takeResult_of_cons hstack (by omega)]
      by_cases hend : rest.length = entry
      · rw [if_pos hend]
        exact .inr ⟨m, rest, rfl, hstack, hend, rfl⟩
      · rw [if_neg hend]
        have hrelease : ∀ m₁, Ends (fun _ _ => True) (fun _ _ => True)
            ((onHeap (Heap.release v)).adaptExcept Fault.heap m₁) :=
          fun m₁ => .of_forall (fun _ _ => trivial) (fun _ _ => trivial) _
        refine Ends.bind_modify ((hrelease _).bind fun _ m₂ _ => ?_)
        exact (abandon_yields entry m₂).mono (fun _ _ => .inl) fun _ _ => id

theorem leave_yields (entry : Nat) (r : EStateM.Result Halt Machine Unit) :
    Ends (fun v m' => v = .error ∨ Yields entry r v m') (fun _ _ => True) (leave entry r) := by
  have habandon : ∀ m, Ends (fun v m' => v = .error ∨ Yields entry r v m') (fun _ _ => True) (abandon entry m) :=
    fun m => (abandon_yields entry m).mono (fun _ _ => .inl) fun _ _ => id
  cases r with
  | ok u m => exact takeResult_yields entry m
  | error halt m =>
    cases halt with
    | diagnostic d => exact Ends.bind_modify (habandon _)
    | reported => exact habandon m
    | fault f => trivial

theorem eq_of_suffix_cons {xs rest : List Value} (hsuffix : xs <:+ v :: rest) (hlength : rest.length = xs.length) :
    rest = xs := by
  rcases List.suffix_cons_iff.mp hsuffix with heq | hsuffix
  · have hlonger := congrArg List.length heq
    simp [hlength] at hlonger
  · exact (hsuffix.eq_of_length hlength.symm).symm

/-- If `evaluate` yields a value other than the error value, `runCode` ran to its end and left that value alone above
the stack. -/
theorem runCode_of_evaluate (hv : v ≠ .error) (heval : evaluate e m = .ok v m') :
    ∃ m₁, runCode evaluate e.code { m with base := m.stack.length } = .ok () m₁ ∧ m₁.stack = v :: m.stack ∧
      m' = { m₁ with stack := m.stack, base := m.base } := by
  rw [evaluate_eq] at heval
  cases hcode : e.code.isEmpty with
  | true =>
    rw [enter_of_isEmpty hcode] at heval
    cases heval
    exact absurd rfl hv
  | false =>
    have hrests := @runCode_evaluate_rests m.stack { m with base := m.stack.length } rfl (List.suffix_refl _) e.code
    have hyields := leave_yields m.stack.length (runCode evaluate e.code { m with base := m.stack.length })
    rw [enter_of_code hcode] at heval
    cases hleave : leave m.stack.length (runCode evaluate e.code { m with base := m.stack.length }) with
    | error f m₂ =>
      rw [hleave] at heval
      cases heval
    | ok w m₂ =>
      rw [hleave] at heval
      cases heval
      obtain ⟨m₁, rest, hrun, hstack, hlength, rfl⟩ := (hyields.of_ok hleave).resolve_left hv
      have hsuffix := (hrests.of_ok hrun).suffix
      rw [hstack] at hsuffix
      obtain rfl := eq_of_suffix_cons hsuffix hlength
      exact ⟨m₁, hrun, hstack, rfl⟩

theorem evaluate_of_runCode {m₁ : Machine}
    (hrun : runCode evaluate e.code { m with base := m.stack.length } = .ok () m₁) (hstack : m₁.stack = v :: m.stack) :
    evaluate e m = .ok v { m₁ with stack := m.stack, base := m.base } := by
  have hcode : e.code.isEmpty = false := by
    cases hempty : e.code with
    | nil =>
      rw [hempty] at hrun
      cases hrun
      simp at hstack
    | cons i rest => rfl
  rw [evaluate_eq, enter_of_code hcode, hrun]
  change afterwards _ (takeResult m.stack.length m₁) = _
  rw [takeResult_of_cons hstack (Nat.le_refl _), if_pos rfl]
  rfl

/-! ## In another frame -/

/-- What is yielded from the machine is yielded in every frame, and wherever there are fewer levels around. -/
def Portable (m : Machine) : Prop :=
  ∀ e v m', evaluate e m = .ok v m' → v ≠ .error → ∀ base depth, depth ≤ m.depth →
    evaluate e (m.reframe base depth) = .ok v (m'.reframe base depth)

/-- Whatever is one level below the machine is portable, unless that is too deep. -/
def PortableBelow (m : Machine) : Prop :=
  ∀ m₁ : Machine, m₁.limits = m.limits → m₁.depth = m.depth + 1 → m.depth < m.limits.maxDepth → m₁.Portable

/-- An instruction that succeeds does the same from a lower base and a lower depth. -/
theorem step_reframe {i : Instruction} (hbelow : m.PortableBelow) (hbase : base ≤ m.base) (hdepth : depth ≤ m.depth)
    (hstep : step evaluate i m = .ok () m') :
    step evaluate i (m.reframe base depth) = .ok () (m'.reframe base depth) := by
  cases hcall : m.call? i with
  | none => exact step_reframe_of_not_call hbase hdepth hcall hstep
  | some call =>
    obtain ⟨e, m₁⟩ := call
    obtain ⟨hlimits, hdeeper, hlt⟩ := call?_deeper hcall
    rw [step_of_call hcall] at hstep
    obtain ⟨v, m₂, heval, hv, rfl⟩ := ascend_eq_ok_iff.mp hstep
    have hnested := hbelow m₁ hlimits hdeeper hlt e v m₂ heval hv base (depth + 1) (by omega)
    rw [step_of_call (call?_reframe hbase hdepth hcall), hnested]
    exact ascend_eq_ok_iff.mpr ⟨v, _, rfl, hv, rfl⟩

theorem runCode_reframe {code : List Instruction} (hbelow : m.PortableBelow) (hfloor : floor <:+ m.stack)
    (hframe : m.base = floor.length) (hbase : base ≤ m.base) (hdepth : depth ≤ m.depth)
    (hrun : runCode evaluate code m = .ok () m') :
    runCode evaluate code (m.reframe base depth) = .ok () (m'.reframe base depth) := by
  induction code generalizing m with
  | nil =>
    cases hrun
    rfl
  | cons i rest ih =>
    rw [runCode] at hrun ⊢
    cases hstep : step evaluate i m with
    | error halt m₁ =>
      rw [bind_apply_of_error hstep] at hrun
      cases hrun
    | ok u m₁ =>
      have hm₁ := (step_evaluate_rests hframe hfloor i).of_ok hstep
      have hbelow₁ : m₁.PortableBelow := by
        unfold PortableBelow
        rw [hm₁.limits_eq, hm₁.depth_eq]
        exact hbelow
      rw [bind_apply_of_ok hstep] at hrun
      rw [bind_apply_of_ok (step_reframe hbelow hbase hdepth hstep)]
      refine ih hbelow₁ hm₁.suffix (hm₁.base_eq.trans hframe) ?_ ?_ hrun
      · rw [hm₁.base_eq]
        exact hbase
      · rw [hm₁.depth_eq]
        exact hdepth

theorem portable_of_below (hbelow : m.PortableBelow) : m.Portable := by
  intro e v m' heval hv base depth hdepth
  obtain ⟨m₁, hrun, hstack, rfl⟩ := runCode_of_evaluate hv heval
  have hrun' := @runCode_reframe { m with base := m.stack.length } _ m.stack m.stack.length depth e.code hbelow
    (List.suffix_refl _) rfl (Nat.le_refl _) hdepth hrun
  exact @evaluate_of_runCode (m.reframe base depth) _ _ _ hrun' hstack

theorem portable (m : Machine) : m.Portable := by
  -- By induction on the levels that are left below the machine.
  generalize hroom : m.limits.maxDepth - m.depth = room
  induction room generalizing m with
  | zero =>
    apply portable_of_below
    intro m₁ hlimits hdepth hlt
    omega
  | succ room ih =>
    apply portable_of_below
    intro m₁ hlimits hdepth hlt
    apply ih
    rw [hlimits, hdepth]
    omega

/-! ## Evaluating the expression on top -/

theorem call?_of_step {h : Handle} {below : List Value} {evaluate : Expression → MachineM Fault Value}
    (htop : m.frame = .ref .expression h :: below) (hstep : step evaluate .evaluateExpression m = .ok () m') :
    ∃ e heap₁, m.heap.get? .expression h = some e ∧ Heap.release (.ref .expression h) m.heap = .ok () heap₁ ∧
      m.call? .evaluateExpression = some (e, m.descended heap₁) := by
  have hresolve := resolve_evaluateExpression htop
  have hpasses : ∃ action, m.resolve .evaluateExpression = .ok action := by
    cases hcheck : m.resolve .evaluateExpression with
    | ok action => exact ⟨action, rfl⟩
    | error halt =>
      rw [step_of_halt hcheck] at hstep
      cases hstep
  obtain ⟨action, haction⟩ := hpasses
  rw [haction] at hresolve
  split_ifs at hresolve with hdepth
  · cases hresolve
  · cases hget : m.heap.get? .expression h with
    | none =>
      simp only [Check.object, Heap.fetch, hget] at hresolve
      cases hresolve
    | some e =>
      simp only [Check.object, Heap.fetch, hget] at hresolve
      cases hresolve
      cases hrelease : Heap.release (.ref .expression h) m.heap with
      | error err heap₁ =>
        rw [step_of_resolve haction, perform_evaluate_of_error hrelease] at hstep
        cases hstep
      | ok u heap₁ => exact ⟨e, heap₁, rfl, rfl, call?_eq_some_iff.mpr ⟨_, heap₁, haction, hrelease, rfl⟩⟩

end Machine

/-- **Inlining.** If the instruction that evaluates the expression on top succeeds, then after popping and releasing the
handle the instructions of that expression succeed one after the other, in the same frame and at the same depth, and end
in the same machine. -/
theorem evaluation_inlines {m m' : Machine} {h : Handle} {below : List Value}
    (htop : m.frame = .ref .expression h :: below)
    (hstep : Machine.step Machine.evaluate .evaluateExpression m = .ok () m') :
    ∃ e heap₁, m.heap.get? .expression h = some e ∧ Heap.release (.ref .expression h) m.heap = .ok () heap₁ ∧
      Machine.runCode Machine.evaluate e.code { m with heap := heap₁, stack := m.stack.drop 1 } = .ok () m' := by
  obtain ⟨e, heap₁, hget, hrelease, hcall⟩ := Machine.call?_of_step htop hstep
  refine ⟨e, heap₁, hget, hrelease, ?_⟩
  rw [Machine.step_of_call hcall] at hstep
  obtain ⟨v, m₂, heval, hv, rfl⟩ := Machine.ascend_eq_ok_iff.mp hstep
  obtain ⟨m₃, hrun, hstack, rfl⟩ := Machine.runCode_of_evaluate hv heval
  -- The frame of the nested expression is on top of what is left of the caller's.
  have hbase : m.base ≤ (m.stack.drop 1).length := by
    have hlength := congrArg List.length htop
    simp only [Machine.frame, List.length_take, List.length_cons] at hlength
    rw [List.length_drop]
    omega
  have hinlined := @Machine.runCode_reframe { m.descended heap₁ with base := (m.stack.drop 1).length } m₃
    (m.stack.drop 1) m.base m.depth e.code (fun m₁ _ _ _ => m₁.portable) (List.suffix_refl _) rfl hbase
    (Nat.le_succ _) hrun
  have hdepth : m₃.depth = m.depth + 1 :=
    ((Machine.runCode_evaluate_rests rfl (List.suffix_refl (m.stack.drop 1)) e.code).of_ok hrun).depth_eq
  have hend : m₃.reframe m.base m.depth =
      { m₃ with stack := v :: m.stack.drop 1, base := m.base, depth := m₃.depth - 1 } := by
    rw [← hstack, hdepth]
    rfl
  rw [hend] at hinlined
  exact hinlined

/-- A machine inside another expression, with a value of that below an expression that evaluates one itself. -/
def quotedOnTop : Machine where
  heap := .holding quotedSeven
  stack := [.ref .expression ⟨0⟩, .boolean true]
  depth := 1

/-- The instructions of the expression put its number in the place of the handle. -/
theorem evaluation_inlines_quoted :
    quotedOnTop.frame = [.ref .expression ⟨0⟩, .boolean true] ∧
    ∃ m' heap₁, Machine.step Machine.evaluate .evaluateExpression quotedOnTop = .ok () m' ∧
      m'.stack = [.integer 7, .boolean true] ∧
      Heap.release (.ref .expression ⟨0⟩) quotedOnTop.heap = .ok () heap₁ ∧
      Machine.runCode Machine.evaluate quotedSeven.code { quotedOnTop with heap := heap₁, stack := [.boolean true] } =
        .ok () m' := by
  have htop : quotedOnTop.frame = [.ref .expression ⟨0⟩, .boolean true] := by decide
  have hsucceeds : (answer? (Machine.step Machine.evaluate .evaluateExpression quotedOnTop)).map (·.2.stack) =
      some [.integer 7, .boolean true] := by
    decide +kernel
  obtain ⟨⟨u, m'⟩, hanswer, hstack⟩ := Option.map_eq_some_iff.mp hsucceeds
  have hstep := answer?_eq_some_iff.mp hanswer
  obtain ⟨e, heap₁, hget, hrelease, hrun⟩ := evaluation_inlines htop hstep
  have he : quotedOnTop.heap.get? .expression ⟨0⟩ = some quotedSeven := by rfl
  cases hget.symm.trans he
  exact ⟨htop, m', heap₁, hstep, hstack, hrelease, hrun⟩

end RefMachine
