import RefMachine.Proofs.Machine.Draws

/-!
# Expressions made of tuples

The code of an expression may be made by a program: each instruction is spelled by a tuple of an opcode and an operand. A
tuple that spells no instruction which fits is refused, and so an expression that is made is one whose operands all fit
(`Machine.Quotes`).
-/

namespace RefMachine

variable {heap : Heap} {v : Value} {i : Instruction}

/-- The value is a tuple of the instruction's opcode and of an operand. An opcode without an operand takes none of it. -/
def Heap.Spells (heap : Heap) (v : Value) (i : Instruction) : Prop :=
  ∃ h operand, v = .ref .tuple h ∧ heap.get? .tuple h = some [.opcode i.opcode, operand] ∧
    i.operand = if i.opcode.width = 0 then .error else operand

namespace Passes

variable {ε α β : Type}

theorem weaken {good : α → Prop} {bad : ε → Prop} {x : Except ε α} (hx : Passes good bad x) :
    Passes good (fun _ => True) x := by
  cases x with
  | ok a => exact hx
  | error e => trivial

theorem of_forall_bind {next : β → Prop} {f : α → Except ε β} (hf : ∀ a, Passes next (fun _ => True) (f a))
    (x : Except ε α) : Passes next (fun _ => True) (x >>= f) := by
  cases x with
  | ok a => exact hf a
  | error e => trivial

end Passes

namespace Machine

variable {m : Machine}

theorem objectOf_finds (heap : Heap) (op : Opcode) (k : Kind) (v : Value) :
    Passes (fun x => ∃ h, v = .ref k h ∧ heap.get? k h = some x) (fun _ => True) (Check.objectOf heap op k v) := by
  refine (@handle_passes {} op k v).weaken.bind fun h hv => ?_
  exact (object_draws heap k h).weaken.mono fun x hget => ⟨h, hv, hget⟩

theorem instruction_fits (op : Opcode) (operand : Value) :
    Passes (fun i => i = ⟨op, if op.width = 0 then .error else operand⟩ ∧ i.fits = true) (fun _ => True)
      (Check.instruction op operand) := by
  unfold Check.instruction
  dsimp only
  by_cases hfits : (⟨op, if op.width = 0 then .error else operand⟩ : Instruction).fits = true
  · rw [if_pos hfits]
    exact ⟨rfl, hfits⟩
  · rw [if_neg hfits]
    trivial

theorem reflect_spells (heap : Heap) (op : Opcode) (index : Nat) (v : Value) :
    Passes (fun i => heap.Spells v i ∧ i.fits = true) (fun _ => True) (Check.reflect heap op index v) := by
  unfold Check.reflect
  refine (objectOf_finds heap op .tuple v).bind ?_
  rintro items ⟨h, rfl, hget⟩
  split
  · rename_i target operand
    refine (instruction_fits target operand).mono ?_
    rintro i ⟨rfl, hfits⟩
    exact ⟨⟨h, operand, rfl, hget, rfl⟩, hfits⟩
  · trivial

/-- The expression has the type on top and an instruction for each of the `n` values below it, the first for the topmost;
and the operands fit. -/
structure Quotes (m : Machine) (n : Nat) (e : Expression) : Prop where
  type_eq : m.stack.head? = some (.type e.resultType)
  length_eq : e.code.length = n
  spells : ∀ j i, e.code[j]? = some i → ∃ v, m.stack[j + 1]? = some v ∧ m.heap.Spells v i
  fits : ∀ i ∈ e.code, i.fits = true

theorem topAndBelow_stack (m : Machine) (op : Opcode) (count : Nat) :
    Passes (fun p => ∃ rest, m.stack = p.1 :: (p.2 ++ rest) ∧ p.2.length = count) (fun _ => True)
      (m.topAndBelow op count) := by
  have hstack := m.frame_append_drop
  unfold topAndBelow
  split
  · rename_i v rest hframe
    rw [hframe] at hstack
    split_ifs with hcount
    · trivial
    · refine ⟨rest.drop count ++ m.stack.drop m.frame.length, ?_, ?_⟩
      · rw [← List.append_assoc, List.take_append_drop, hframe, ← List.cons_append, hstack]
      · rw [List.length_take]
        omega
  · trivial

theorem quotation_quotes (m : Machine) (op : Opcode) (n : Nat) :
    Passes (m.Quotes n) (fun _ => True) (m.quotation op n) := by
  unfold quotation
  refine (m.topAndBelow_stack op n).bind ?_
  rintro ⟨top, pairs⟩ ⟨rest, hstack, hlength⟩
  refine (@typeTag_passes m op top).weaken.bind ?_
  rintro tag rfl
  have hcode : Passes (fun code => List.Forall₂ (fun pair i => m.heap.Spells pair.1 i ∧ i.fits = true) pairs.zipIdx code)
      (fun _ => True) (pairs.zipIdx.mapM fun pair => Check.reflect m.heap op pair.2 pair.1) :=
    Passes.mapM fun pair _ => reflect_spells m.heap op pair.2 pair.1
  refine hcode.bind fun code hforall => ?_
  obtain ⟨hcount, hget⟩ := List.forall₂_iff_get.mp hforall
  rw [List.length_zipIdx] at hcount
  have hspells : ∀ j i, code[j]? = some i → ∃ v, m.stack[j + 1]? = some v ∧ m.heap.Spells v i ∧ i.fits = true := by
    intro j i hi
    obtain ⟨hj, rfl⟩ := List.getElem?_eq_some_iff.mp hi
    have hpair : j < pairs.length := by omega
    have hpair' : j < pairs.zipIdx.length := by rwa [List.length_zipIdx]
    refine ⟨pairs[j], ?_, ?_⟩
    · rw [hstack, List.getElem?_cons_succ, List.getElem?_append_left hpair, List.getElem?_eq_getElem hpair]
    · simpa using hget j hpair' hj
  refine ⟨by rw [hstack]; rfl, hcount.symm.trans hlength, fun j i hi => ?_, fun i hi => ?_⟩
  · obtain ⟨v, hv, hvi, -⟩ := hspells j i hi
    exact ⟨v, hv, hvi⟩
  · obtain ⟨j, hj⟩ := List.mem_iff_getElem?.mp hi
    obtain ⟨-, -, -, hfits⟩ := hspells j i hj
    exact hfits

theorem resolve_newExpression {n : Nat} (hoperation : i.operation? = some (.newExpression n)) :
    Passes (fun action => ∃ e, action = .quote e ∧ m.Quotes n e) (fun _ => True) (m.resolve i) := by
  unfold resolve
  rw [hoperation]
  exact (m.quotation_quotes i.opcode n).bind fun e he => ⟨e, rfl, he⟩

theorem resolve_quotes (m : Machine) (i : Instruction) :
    Passes (fun action => ∀ e, action = .quote e → ∃ n, i.operation? = some (.newExpression n) ∧ m.Quotes n e)
      (fun _ => True) (m.resolve i) := by
  unfold resolve
  cases i.operation? with
  | none => trivial
  | some operation =>
    cases operation with
    | newExpression n =>
      refine (m.quotation_quotes i.opcode n).bind fun e he => ?_
      rintro e' ⟨⟩
      exact ⟨n, rfl, he⟩
    | nop | push => rintro e ⟨⟩
    | getType | assign | typeIs | typeEquals | read =>
      refine .of_forall_bind (fun _ => ?_) _
      rintro e ⟨⟩
    | tupleArity | evaluateExpression | listAdd | listHead | listTail =>
      refine .of_forall_bind (fun _ => .of_forall_bind (fun _ => ?_) _) _
      rintro e ⟨⟩
    | pushLiteral id =>
      simp only [resolveOperation]
      cases m.literals.text? id with
      | none => trivial
      | some text => rintro e ⟨⟩
    | tupleItem index =>
      refine .of_forall_bind (fun v => .of_forall_bind (fun items => ?_) _) _
      split
      · rintro e ⟨⟩
      · trivial
    | newTuple arity =>
      simp only [resolveOperation]
      split_ifs
      · trivial
      · rintro e ⟨⟩

end Machine

end RefMachine
