import RefMachine.Codec.Encode
import RefMachine.Proofs.Outcome

/-!
# What writers put into a sink

Writing bytes in several writes is the same as writing them in one, whether or not the sink has room for all of them
(`write_append`). So a writer is one write and what comes after it. The writer of expressions writes the header and the
instructions up to the first whose operand does not fit, and then refuses that instruction, if there is one
(`writeExpression_eq`).
-/

namespace RefMachine

/-- What is written of an instruction whose operand fits. -/
def Instruction.bytes (i : Instruction) : List UInt8 :=
  i.opcode.tag.bytes ++ littleEndian i.opcode.width i.operand.payload.toNat

/-- What is written of an expression: the type tag, the number of instructions, and the instructions before the first
whose operand does not fit. -/
def Expression.fittingBytes (e : Expression) : List UInt8 :=
  littleEndian 4 e.resultType.bits.toNat ++
    (littleEndian 4 e.code.length ++ (e.code.takeWhile Instruction.fits).flatMap Instruction.bytes)

namespace Encoder

theorem write_unbounded (bytes : List UInt8) (stored : Array UInt8) :
    write bytes ⟨stored, none⟩ = .ok () ⟨stored ++ bytes, none⟩ :=
  rfl

theorem write_of_room {bytes : List UInt8} {stored : Array UInt8} {capacity : Nat}
    (hroom : bytes.length ≤ capacity - stored.size) :
    write bytes ⟨stored, some capacity⟩ = .ok () ⟨stored ++ bytes, some capacity⟩ :=
  if_pos hroom

theorem write_of_excess {bytes : List UInt8} {stored : Array UInt8} {capacity : Nat}
    (hroom : capacity - stored.size < bytes.length) :
    write bytes ⟨stored, some capacity⟩ =
      .error .sinkFull ⟨stored ++ bytes.take (capacity - stored.size), some capacity⟩ :=
  if_neg (Nat.not_le_of_lt hroom)

theorem write_nil : write [] = pure () := by
  funext ⟨stored, capacity⟩
  cases capacity with
  | none =>
    rw [write_unbounded, Array.appendList_nil]
    rfl
  | some capacity =>
    rw [write_of_room (Nat.zero_le _), Array.appendList_nil]
    rfl

theorem write_append (xs ys : List UInt8) : write (xs ++ ys) = (write xs >>= fun _ => write ys) := by
  funext ⟨stored, capacity⟩
  have hstored : stored ++ xs ++ ys = stored ++ (xs ++ ys) := by
    apply Array.toList_inj.mp
    simp only [Array.toList_appendList, List.append_assoc]
  have hlength : (xs ++ ys).length = xs.length + ys.length := List.length_append
  cases capacity with
  | none => rw [bind_apply_of_ok (write_unbounded xs stored), write_unbounded, write_unbounded, hstored]
  | some capacity =>
    have hsize : (stored ++ xs).size = stored.size + xs.length := by
      rw [← Array.length_toList, Array.toList_appendList, List.length_append, Array.length_toList]
    by_cases hxs : xs.length ≤ capacity - stored.size
    · rw [bind_apply_of_ok (write_of_room hxs)]
      by_cases hys : ys.length ≤ capacity - (stored ++ xs).size
      · rw [write_of_room hys, write_of_room (by omega), hstored]
      · -- The first write has taken some of the room, and the second takes the rest.
        have htake : stored ++ xs ++ ys.take (capacity - (stored ++ xs).size) =
            stored ++ (xs ++ ys).take (capacity - stored.size) := by
          apply Array.toList_inj.mp
          simp only [Array.toList_appendList, List.append_assoc, List.take_append, List.take_of_length_le hxs, hsize,
            Nat.sub_add_eq]
        rw [write_of_excess (by omega), write_of_excess (by omega), htake]
    · rw [bind_apply_of_error (write_of_excess (by omega)), write_of_excess (by omega),
        List.take_append_of_le_length (by omega)]

theorem writeInstruction_of_fits {i : Instruction} (hfits : i.fits = true) : writeInstruction i = write i.bytes := by
  rw [writeInstruction, if_pos hfits, Instruction.bytes, write_append]

theorem writeInstruction_of_misfit {i : Instruction} (hfits : i.fits = false) :
    writeInstruction i = throw (.operandMismatch i.opcode i.operand) := by
  rw [writeInstruction, hfits]
  rfl

/-- Refuses the first instruction whose operand does not fit, if there is one. -/
def refuse (code : List Instruction) : Encoder Unit :=
  match code.find? (fun i => !i.fits) with
  | some i => throw (.operandMismatch i.opcode i.operand)
  | none => pure ()

theorem refuse_of_fits {code : List Instruction} (hfits : ∀ i ∈ code, i.fits = true) : refuse code = pure () := by
  have hnone : code.find? (fun i => !i.fits) = none := by
    simpa using hfits
  rw [refuse, hnone]

theorem refuse_of_misfit {code : List Instruction} {i : Instruction}
    (hfind : code.find? (fun i => !i.fits) = some i) : refuse code = throw (.operandMismatch i.opcode i.operand) := by
  rw [refuse, hfind]

theorem writeAll_eq (code : List Instruction) :
    code.forM writeInstruction =
      (write ((code.takeWhile Instruction.fits).flatMap Instruction.bytes) >>= fun _ => refuse code) := by
  induction code with
  | nil =>
    show pure () = (write [] >>= fun _ => pure ())
    rw [write_nil, pure_bind]
  | cons i code ih =>
    show (writeInstruction i >>= fun _ => code.forM writeInstruction) = _
    cases hfits : i.fits with
    | true =>
      have hrefuse : refuse (i :: code) = refuse code := by
        simp only [refuse, List.find?_cons, hfits, Bool.not_true]
      rw [writeInstruction_of_fits hfits, ih, hrefuse, List.takeWhile_cons_of_pos hfits, List.flatMap_cons, write_append,
        bind_assoc]
    | false =>
      have hrefuse : refuse (i :: code) = throw (.operandMismatch i.opcode i.operand) := by
        simp only [refuse, List.find?_cons, hfits, Bool.not_false]
      rw [writeInstruction_of_misfit hfits, hrefuse, List.takeWhile_cons_of_neg (by simp [hfits]), List.flatMap_nil,
        write_nil, pure_bind]
      rfl

/-- `writeExpression` is one write of the `fittingBytes`, and then the refusal of the first operand that does not fit.
-/
theorem writeExpression_eq {e : Expression} (hcount : e.code.length ≤ 0x7FFFFFFF) :
    writeExpression e = (write e.fittingBytes >>= fun _ => refuse e.code) := by
  rw [writeExpression, if_pos (Nat.lt_succ_of_le hcount), writeAll_eq, Expression.fittingBytes, write_append,
    write_append]
  simp only [bind_assoc]

end Encoder

end RefMachine
