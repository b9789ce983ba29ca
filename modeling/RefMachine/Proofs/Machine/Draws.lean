import RefMachine.Proofs.Heap.Contents
import RefMachine.Proofs.Machine.Resolve

/-!
# What an action draws on

Whether or not the references of a machine are accounted for, an instruction takes values of the frame only, carries no
error value unless one was stored, and evaluates nothing at the largest depth. What it is rejected with is its own
fault, and not that of an expression that it evaluates (`resolve_draws`).
-/

namespace RefMachine

theorem Value.isError_iff {v : Value} : v.isError = true ↔ v = .error := by
  cases v <;> simp [isError]

theorem Value.error_not_mem_singleton {v : Value} : .error ∉ [v] ↔ v ≠ .error := by
  rw [List.mem_singleton, ne_comm]

/-- The values that an action carries from one place to another. -/
def Action.carried : Action → List Value
  | .push v | .replace _ v | .cons v _ | .assign v _ _ => [v]
  | .skip | .intern _ | .compare _ | .pack _ | .quote _ | .evaluate _ _ => []

/-- The action evaluates a nested expression. -/
def Action.Nesting : Action → Prop
  | .evaluate _ _ => True
  | _ => False

/-- The diagnostic is about one instruction and what it found: not about an expression as a whole or one that it
evaluated, and not about a variable that may not be bound again. -/
def Diagnostic.OfInstruction : Diagnostic → Prop
  | .emptyStackOnExit | .stackImbalance _ _ | .immutableRebind | .nestedEvaluation => False
  | _ => True

theorem Diagnostic.OfInstruction.ne_nestedEvaluation {d : Diagnostic} (hd : d.OfInstruction) : d ≠ .nestedEvaluation := by
  rintro rfl
  exact hd

/-- The instruction itself is what is wrong, and it was not reported yet. -/
def Halt.Own : Halt → Prop
  | .diagnostic d => d.OfInstruction
  | .reported => False
  | .fault _ => True

namespace Machine

variable {v : Value}

/-- No error value is stored: on the stack, in a variable, or in an object of the heap. -/
structure Clean (m : Machine) : Prop where
  stack : .error ∉ m.stack
  scope : .error ∉ m.scope.values
  heap : ¬ m.heap.Contains .error

/-- What an action relies on in any machine. -/
structure Draws (m : Machine) (action : Action) : Prop where
  arity_le : action.arity ≤ m.frame.length
  clean : m.Clean → .error ∉ action.carried
  depth_lt : action.Nesting → m.depth < m.limits.maxDepth

theorem top_draws (m : Machine) (op : Opcode) :
    Passes (fun v => m.stack.head? = some v ∧ 1 ≤ m.frame.length) Halt.Own (m.top op) := by
  have hown : Passes (fun _ => True) Halt.Own (m.top op) := by
    unfold top
    split
    · trivial
    · trivial
  exact (m.top_passes op).and_bad hown

theorem topTwo_draws (m : Machine) (op : Opcode) :
    Passes (fun p => m.stack.take 2 = [p.1, p.2] ∧ 2 ≤ m.frame.length) Halt.Own (m.topTwo op) := by
  have hown : Passes (fun _ => True) Halt.Own (m.topTwo op) := by
    unfold topTwo
    split
    · trivial
    · trivial
  exact (m.topTwo_passes op).and_bad hown

theorem topAndBelow_draws (m : Machine) (op : Opcode) (count : Nat) :
    Passes (fun p => p.2.length = count ∧ count + 1 ≤ m.frame.length) Halt.Own (m.topAndBelow op count) := by
  have hown : Passes (fun _ => True) Halt.Own (m.topAndBelow op count) := by
    unfold topAndBelow
    split
    · split_ifs
      · trivial
      · trivial
    · trivial
  exact ((m.topAndBelow_passes op count).mono fun _ hp => ⟨hp.2.1, hp.2.2.1⟩).and_bad hown

theorem handle_draws (op : Opcode) (k : Kind) (v : Value) :
    Passes (fun _ => True) Halt.Own (Check.handle op k v) := by
  unfold Check.handle
  cases v.handleOf? k with
  | none => trivial
  | some h => trivial

theorem typeTag_draws (op : Opcode) (v : Value) : Passes (fun _ => True) Halt.Own (Check.typeTag op v) := by
  unfold Check.typeTag
  cases v.typeTag? with
  | none => trivial
  | some tag => trivial

theorem object_draws (heap : Heap) (k : Kind) (h : Handle) :
    Passes (fun x => heap.get? k h = some x) Halt.Own (Check.object heap k h) := by
  simp only [Check.object, Heap.fetch]
  cases heap.get? k h with
  | none => trivial
  | some x => exact rfl

theorem objectOf_draws (heap : Heap) (op : Opcode) (k : Kind) (v : Value) :
    Passes (fun x => ∃ h, heap.get? k h = some x) Halt.Own (Check.objectOf heap op k v) := by
  unfold Check.objectOf
  refine (handle_draws op k v).bind fun h _ => ?_
  exact (object_draws heap k h).mono fun x hget => ⟨h, hget⟩

theorem cellOf_draws (heap : Heap) (op : Opcode) (v : Value) :
    Passes (fun cell => heap.Contains cell.head) Halt.Own (Check.cellOf heap op v) := by
  unfold Check.cellOf
  refine (handle_draws op .list v).bind fun h _ => ?_
  cases hsentinel : h.isSentinel with
  | true => trivial
  | false => exact (object_draws heap .list h).mono fun cell hget => .head hsentinel hget

theorem reflect_draws (heap : Heap) (op : Opcode) (index : Nat) (v : Value) :
    Passes (fun _ => True) Halt.Own (Check.reflect heap op index v) := by
  unfold Check.reflect
  refine (objectOf_draws heap op .tuple v).bind fun items _ => ?_
  split
  · unfold Check.instruction
    dsimp only
    split_ifs <;> trivial
  · trivial

theorem typePair_draws (m : Machine) (op : Opcode) :
    Passes (fun _ => 2 ≤ m.frame.length) Halt.Own (m.typePair op) := by
  unfold typePair
  refine (m.topTwo_draws op).bind fun p hp => ?_
  refine (typeTag_draws op p.1).bind fun right _ => ?_
  exact (typeTag_draws op p.2).bind fun left _ => hp.2

theorem quotation_draws (m : Machine) (op : Opcode) (count : Nat) :
    Passes (fun e => e.code.length + 1 ≤ m.frame.length) Halt.Own (m.quotation op count) := by
  unfold quotation
  refine (m.topAndBelow_draws op count).bind ?_
  rintro ⟨top, pairs⟩ ⟨hlength, hcount⟩
  refine (typeTag_draws op top).bind fun tag _ => ?_
  have hcode : Passes (fun code => List.Forall₂ (fun _ _ => True) pairs.zipIdx code) Halt.Own
      (pairs.zipIdx.mapM fun pair => Check.reflect m.heap op pair.2 pair.1) :=
    Passes.mapM fun pair _ => reflect_draws m.heap op pair.2 pair.1
  refine hcode.bind fun code hforall => ?_
  have heq := hforall.length_eq
  rw [List.length_zipIdx] at heq
  simp only at hlength hcount
  change code.length + 1 ≤ _
  omega

theorem nestedExpression_draws (m : Machine) (op : Opcode) (v : Value) :
    Passes (fun _ => m.depth < m.limits.maxDepth) Halt.Own (m.nestedExpression op v) := by
  unfold nestedExpression
  refine (handle_draws op .expression v).bind fun h _ => ?_
  split_ifs with hdepth
  · trivial
  · exact (object_draws m.heap .expression h).mono fun _ _ => Nat.lt_of_not_le hdepth

theorem variableValue_draws (m : Machine) (index : Nat) :
    Passes (fun v => v ∈ m.scope.values) Halt.Own (m.variableValue index) := by
  have hown : Passes (fun _ => True) Halt.Own (m.variableValue index) := by
    unfold variableValue
    split
    · split_ifs
      · trivial
      · trivial
    · trivial
  exact (m.variableValue_passes index).and_bad hown

theorem ne_error_of_push {i : Instruction} (hi : i.operation? = some (.push v)) : v ≠ .error := by
  obtain ⟨opcode, operand⟩ := i
  rintro rfl
  cases opcode <;> simp [Instruction.operation?, Instruction.bare?, Instruction.constant?, Value.emptyList] at hi
  all_goals
    obtain ⟨hty, rfl⟩ := hi
    cases hty

/-- An instruction resolves to an action on values of its own frame, or is rejected for a reason of its own. -/
theorem resolve_draws (m : Machine) (i : Instruction) : Passes m.Draws Halt.Own (m.resolve i) := by
  unfold resolve
  cases hop : i.operation? with
  | none => trivial
  | some operation =>
    cases operation with
    | nop => exact ⟨Nat.zero_le _, fun _ => List.not_mem_nil, False.elim⟩
    | push v =>
      exact ⟨Nat.zero_le _, fun _ => Value.error_not_mem_singleton.mpr (ne_error_of_push hop), False.elim⟩
    | pushLiteral id =>
      simp only [resolveOperation]
      cases m.literals.text? id with
      | none => trivial
      | some text => exact ⟨Nat.zero_le _, fun _ => List.not_mem_nil, False.elim⟩
    | getType =>
      refine (m.top_draws i.opcode).bind fun v hv => ?_
      exact ⟨hv.2, fun _ => Value.error_not_mem_singleton.mpr (by simp), False.elim⟩
    | typeIs =>
      refine (m.typePair_draws i.opcode).bind fun types htypes => ?_
      exact ⟨htypes, fun _ => List.not_mem_nil, False.elim⟩
    | typeEquals =>
      refine (m.typePair_draws i.opcode).bind fun types htypes => ?_
      exact ⟨htypes, fun _ => List.not_mem_nil, False.elim⟩
    | tupleArity =>
      refine (m.top_draws i.opcode).bind fun v hv => ?_
      refine (objectOf_draws m.heap i.opcode .tuple v).bind fun items _ => ?_
      exact ⟨hv.2, fun _ => Value.error_not_mem_singleton.mpr (by simp [Value.ofCount]), False.elim⟩
    | tupleItem index =>
      refine (m.top_draws i.opcode).bind fun v hv => ?_
      refine (objectOf_draws m.heap i.opcode .tuple v).bind fun items hitems => ?_
      obtain ⟨h, hget⟩ := hitems
      split
      · rename_i item hitem
        refine ⟨hv.2, fun hclean => Value.error_not_mem_singleton.mpr ?_, False.elim⟩
        rintro rfl
        exact hclean.heap (.item hget (List.mem_of_getElem? hitem))
      · trivial
    | newTuple arity =>
      simp only [resolveOperation]
      split_ifs with harity
      · trivial
      · exact ⟨Nat.le_of_not_lt harity, fun _ => List.not_mem_nil, False.elim⟩
    | newExpression count =>
      refine (m.quotation_draws i.opcode count).bind fun e he => ?_
      exact ⟨he, fun _ => List.not_mem_nil, False.elim⟩
    | evaluateExpression =>
      refine (m.top_draws i.opcode).bind fun v hv => ?_
      refine (m.nestedExpression_draws i.opcode v).bind fun e hdepth => ?_
      exact ⟨hv.2, fun _ => List.not_mem_nil, fun _ => hdepth⟩
    | listAdd =>
      refine (m.topTwo_draws i.opcode).bind ?_
      rintro ⟨head, list⟩ ⟨hstack, hlength⟩
      refine (handle_draws i.opcode .list list).bind fun tail _ => ?_
      have hhead : head ∈ m.stack := List.mem_of_mem_take (hstack ▸ List.mem_cons_self)
      refine ⟨hlength, fun hclean => Value.error_not_mem_singleton.mpr ?_, False.elim⟩
      exact ne_of_mem_of_not_mem hhead hclean.stack
    | listHead =>
      refine (m.top_draws i.opcode).bind fun v hv => ?_
      refine (cellOf_draws m.heap i.opcode v).bind fun cell hcell => ?_
      refine ⟨hv.2, fun hclean => Value.error_not_mem_singleton.mpr fun heq => ?_, False.elim⟩
      exact hclean.heap (heq ▸ hcell)
    | listTail =>
      refine (m.top_draws i.opcode).bind fun v hv => ?_
      refine (cellOf_draws m.heap i.opcode v).bind fun cell _ => ?_
      exact ⟨hv.2, fun _ => Value.error_not_mem_singleton.mpr (by simp), False.elim⟩
    | assign index mutability =>
      refine (m.top_draws i.opcode).bind fun v hv => ?_
      refine ⟨hv.2, fun hclean => Value.error_not_mem_singleton.mpr ?_, False.elim⟩
      exact ne_of_mem_of_not_mem (List.mem_of_head? hv.1) hclean.stack
    | read index =>
      refine (m.variableValue_draws index).bind fun v hv => ?_
      refine ⟨Nat.zero_le _, fun hclean => Value.error_not_mem_singleton.mpr ?_, False.elim⟩
      exact ne_of_mem_of_not_mem hv hclean.scope

end Machine

end RefMachine
