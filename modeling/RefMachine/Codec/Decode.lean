import RefMachine.Codec.Encode

/-!
# Reading expressions from bytes

The reader asks a source for one byte after another. A source ends when its bytes are used up, and may break before
that. A read that fails has consumed what it had asked for until then.
-/

namespace RefMachine

/-! ## Little-endian numbers -/

/-- The number that the bytes spell, lowest first. -/
def ofLittleEndian : List UInt8 → Nat
  | [] => 0
  | byte :: rest => byte.toNat + 256 * ofLittleEndian rest

theorem ofLittleEndian_littleEndian (width n : Nat) : ofLittleEndian (littleEndian width n) = n % Nat.pow 256 width := by
  induction width generalizing n with
  | zero => exact (Nat.mod_one n).symm
  | succ width ih =>
    have hbyte : n.toUInt8.toNat = n % 256 := UInt8.toNat_ofNat'
    have hpow : Nat.pow 256 (width + 1) = 256 * Nat.pow 256 width := Nat.mul_comm _ _
    rw [littleEndian, ofLittleEndian, ih, hbyte, hpow, Nat.mod_mul]

theorem ofLittleEndian_lt (bytes : List UInt8) : ofLittleEndian bytes < Nat.pow 256 bytes.length := by
  induction bytes with
  | nil => exact Nat.one_pos
  | cons byte rest ih =>
    have hbyte : byte.toNat < 256 := byte.toNat_lt
    have hpow : Nat.pow 256 (rest.length + 1) = 256 * Nat.pow 256 rest.length := Nat.mul_comm _ _
    rw [List.length_cons, hpow, ofLittleEndian]
    omega

theorem littleEndian_ofLittleEndian (bytes : List UInt8) :
    littleEndian bytes.length (ofLittleEndian bytes) = bytes := by
  induction bytes with
  | nil => rfl
  | cons byte rest ih =>
    have hbyte : byte.toNat < 256 := byte.toNat_lt
    have hlow : (byte.toNat + 256 * ofLittleEndian rest).toUInt8 = byte := by
      apply UInt8.toNat_inj.mp
      show (UInt8.ofNat _).toNat = _
      rw [UInt8.toNat_ofNat']
      omega
    have hhigh : (byte.toNat + 256 * ofLittleEndian rest) / 256 = ofLittleEndian rest := by omega
    rw [List.length_cons, ofLittleEndian, littleEndian, hlow, hhigh, ih]

/-! ## Sources -/

/-- Why a read yields no byte. -/
inductive ReadFailure where
  | unexpectedEnd
  /-- Nothing is wrong, and the read is made again. -/
  | interrupted
  | brokenPipe
  | other (description : String)
  deriving DecidableEq

def ReadFailure.message : ReadFailure → String
  | unexpectedEnd => "unexpected end of file"
  | interrupted => "operation interrupted"
  | brokenPipe => "broken pipe"
  | other description => description

inductive DecodeError where
  | unexpectedEnd
  | unknownOpcode (code : UInt16)
  | negativeCount (count : Int)
  | trailingBytes (count : Nat)
  /-- A read failed, and not because the source ended. -/
  | brokenSource {f : ReadFailure}
  deriving DecidableEq

namespace DecodeError

def message : DecodeError → String
  | unexpectedEnd => "unexpected end of instruction stream"
  | unknownOpcode code => "unknown opcode " ++ hexText 4 code.toNat
  | negativeCount count => "negative instruction count " ++ toString count
  | trailingBytes count => "trailing bytes after expression: " ++ toString count
  | @brokenSource f => f.message

/-- The end of a source has an error of its own, and any other failure is passed on. -/
def ofFailure (f : ReadFailure) : DecodeError :=
  if f = .unexpectedEnd then unexpectedEnd else @brokenSource f

end DecodeError

/-- After how many bytes a source breaks, and how every read fails from there on. An interruption passes, so it breaks no
source. -/
structure Breakage where
  after : Nat
  failure : ReadFailure := .brokenPipe
  lasting : failure ≠ .unexpectedEnd ∧ failure ≠ .interrupted := by decide

/-- If nothing else is said, a source breaks like a pipe. -/
instance : Coe Nat Breakage :=
  ⟨fun n => { after := n }⟩

/-- The bytes still to come, and where the source breaks, if it does. -/
structure Source where
  bytes : List UInt8
  breakage : Option Breakage := none

namespace Source

/-- How every read fails, if the source is broken. -/
def failure? (source : Source) : Option ReadFailure :=
  source.breakage.bind fun b => if b.after = 0 then some b.failure else none

/-- The source behind its first byte. -/
def advance (source : Source) : Source where
  bytes := source.bytes.tail
  breakage := source.breakage.map fun b => { b with after := b.after - 1 }

/-- One byte. A source that is broken yields none, whether or not bytes would follow. -/
def next : EStateM ReadFailure Source UInt8 := fun source =>
  match source.failure?, source.bytes with
  | some f, _ => .error f source
  | none, [] => .error .unexpectedEnd source
  | none, byte :: _ => .ok byte source.advance

end Source

abbrev Decoder := EStateM DecodeError Source

namespace Decoder

def readByte : Decoder UInt8 :=
  Source.next.adaptExcept .ofFailure

section

variable {source : Source} {f : ReadFailure} {byte : UInt8} {rest : List UInt8}

theorem readByte_of_failure (hf : source.failure? = some f) : readByte source = .error (.ofFailure f) source := by
  simp only [readByte, EStateM.adaptExcept, Source.next, hf]

theorem readByte_of_nil (hf : source.failure? = none) (hbytes : source.bytes = []) :
    readByte source = .error .unexpectedEnd source := by
  simp only [readByte, EStateM.adaptExcept, Source.next, hf, hbytes]
  rfl

theorem readByte_of_cons (hf : source.failure? = none) (hbytes : source.bytes = byte :: rest) :
    readByte source = .ok byte source.advance := by
  simp only [readByte, EStateM.adaptExcept, Source.next, hf, hbytes]

end

def readBytes : Nat → Decoder (List UInt8)
  | 0 => pure []
  | n + 1 => do
    let byte ← readByte
    let rest ← readBytes n
    return byte :: rest

/-- A number in `width` bytes. -/
def readNumber (width : Nat) : Decoder Nat := do
  return ofLittleEndian (← readBytes width)

def readOpcodeTag : Decoder OpcodeTag := do
  let first ← readByte
  if OpcodeTag.isEscape first then
    return .extended first (← readByte)
  else
    return .short first

def readOpcode : Decoder Opcode := do
  let tag ← readOpcodeTag
  match Opcode.ofCode? tag.code with
  | some op => return op
  | none => throw (.unknownOpcode tag.code)

/-- The operand that an opcode's bytes spell; `none` if they should be the code of an opcode and are not. -/
def operand? (op : Opcode) (payload : Nat) : Option Value :=
  match op with
  | .loadBoolean => some (.boolean (payload != 0))
  | .loadInteger => some (.integer payload.toUInt64.toInt64)
  | .loadFloat => some (.float payload.toUInt64)
  | .loadType => some (.type ⟨payload.toUInt32⟩)
  | .loadString => some (.ref .string ⟨payload.toUInt32⟩)
  | .loadOpcode => (Opcode.ofCode? payload.toUInt16).map .opcode
  | .tupleItem | .newTuple | .assignVariable | .readVariable | .assignMutableVariable | .newExpression =>
    some (.integer (.ofNat payload))
  | .nop | .getType | .typeIs | .typeEquals | .tupleArity | .listHead | .listTail | .listEmpty | .listAdd
  | .evaluateExpression => some .error

def readInstruction : Decoder Instruction := do
  let op ← readOpcode
  let payload ← readNumber op.width
  match operand? op payload with
  | some operand => return ⟨op, operand⟩
  | none => throw (.unknownOpcode payload.toUInt16)

/-- Reads `n` more instructions after those in `done`, which holds the latest first. -/
def readInstructions : Nat → List Instruction → Decoder (List Instruction)
  | 0, done => return done.reverse
  | n + 1, done => do
    let i ← readInstruction
    readInstructions n (i :: done)

def readExpression : Decoder Expression := do
  let tag ← readNumber 4
  let count ← readNumber 4
  if count < 0x80000000 then
    return ⟨⟨tag.toUInt32⟩, ← readInstructions count []⟩
  else
    throw (.negativeCount ((count : Int) - UInt32.size))

/-- Reads items until no byte is left or one fails, with the number of bytes left after each. Every read takes at least
one byte, so there are at most as many reads as bytes. -/
def readEach (read : Decoder α) : (reads : Nat) → Source → List (Except DecodeError α × Nat)
  | 0, _ => []
  | reads + 1, source =>
    if source.bytes.isEmpty then
      []
    else
      match read source with
      | .ok item rest => (.ok item, rest.bytes.length) :: readEach read reads rest
      | .error e rest => [(.error e, rest.bytes.length)]

/-- Reads items one after the other from `bytes`. -/
def readAll (read : Decoder α) (bytes : List UInt8) : List (Except DecodeError α × Nat) :=
  readEach read bytes.length ⟨bytes, none⟩

end Decoder

namespace Expression

/-- Reads one expression that takes up all of `bytes`. -/
def decode (bytes : List UInt8) : Except DecodeError Expression :=
  match Decoder.readExpression ⟨bytes, none⟩ with
  | .ok e rest => if rest.bytes.isEmpty then .ok e else .error (.trailingBytes rest.bytes.length)
  | .error e _ => .error e

end Expression

end RefMachine
