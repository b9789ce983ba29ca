import RefMachine.Instruction

/-!
# Writing expressions as bytes

An expression is its type tag and its number of instructions, a 32-bit word each, and then its instructions: the bytes
of the opcode and the lowest bytes of the operand's payload, as many as the opcode's width. Numbers are written with the
lowest byte first. The bytes go to a sink that may be bounded. Writing stops at the first operand that its opcode does
not take, before any byte of that instruction.
-/

namespace RefMachine

/-- The lowest `width` bytes of `n`, lowest first. -/
def littleEndian : Nat → Nat → List UInt8
  | 0, _ => []
  | width + 1, n => n.toUInt8 :: littleEndian width (n / 256)

@[simp] theorem length_littleEndian (width n : Nat) : (littleEndian width n).length = width := by
  induction width generalizing n with
  | zero => rfl
  | succ width ih => simp [littleEndian, ih]

inductive EncodeError where
  | tooManyInstructions (count : Nat)
  | operandMismatch (op : Opcode) (operand : Value)
  /-- The sink took fewer bytes than were written. -/
  | sinkFull
  deriving DecidableEq

def EncodeError.message : EncodeError → String
  | tooManyInstructions count =>
    "expression has " ++ toString count ++ " instructions, more than the format can count"
  | operandMismatch op operand => op.name ++ " cannot encode operand " ++ operand.text
  | sinkFull => "failed to write whole buffer"

/-- The bytes written so far, and how many there may be. -/
structure Sink where
  stored : Array UInt8 := #[]
  capacity : Option Nat := none

abbrev Encoder := EStateM EncodeError Sink

namespace Encoder

/-- Stores the bytes; those past the capacity are lost, and losing one is an error. -/
def write (bytes : List UInt8) : Encoder Unit := fun sink =>
  match sink.capacity with
  | none => .ok () { sink with stored := sink.stored ++ bytes }
  | some capacity =>
    let room := capacity - sink.stored.size
    if bytes.length ≤ room then
      .ok () { sink with stored := sink.stored ++ bytes }
    else
      .error .sinkFull { sink with stored := sink.stored ++ bytes.take room }

def writeInstruction (i : Instruction) : Encoder Unit := do
  if i.fits then
    write i.opcode.tag.bytes
    write (littleEndian i.opcode.width i.operand.payload.toNat)
  else
    throw (.operandMismatch i.opcode i.operand)

/-- The number of instructions is a signed word, so there are fewer than 0x80000000. -/
def writeExpression (e : Expression) : Encoder Unit := do
  if e.code.length < 0x80000000 then
    write (littleEndian 4 e.resultType.bits.toNat)
    write (littleEndian 4 e.code.length)
    e.code.forM writeInstruction
  else
    throw (.tooManyInstructions e.code.length)

/-- What the encoder stores in an unbounded sink. -/
def bytes (encoder : Encoder Unit) : Except EncodeError (List UInt8) :=
  match encoder {} with
  | .ok () sink => .ok sink.stored.toList
  | .error e _ => .error e

end Encoder

namespace Instruction

def encode (i : Instruction) : Except EncodeError (List UInt8) :=
  (Encoder.writeInstruction i).bytes

end Instruction

namespace Expression

def encode (e : Expression) : Except EncodeError (List UInt8) :=
  (Encoder.writeExpression e).bytes

end Expression

end RefMachine
