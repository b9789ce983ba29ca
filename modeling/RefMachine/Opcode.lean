/-!
# Opcodes

The operations of the machine with their 16-bit codes. A code below 256 is stored as one byte; a larger one as two, the
first of which is an escape byte. Escape bytes are no codes of their own, so the first byte tells whether a second one
follows.
-/

namespace RefMachine

inductive Opcode where
  | nop | getType | typeIs | typeEquals
  | tupleArity | tupleItem | listHead | listTail | newTuple | listEmpty | listAdd
  | loadBoolean | loadInteger | loadFloat | loadType | loadString
  | assignVariable | readVariable | assignMutableVariable
  | loadOpcode | newExpression | evaluateExpression
  deriving DecidableEq

/-- How an opcode is stored. -/
inductive OpcodeTag where
  | short (byte : UInt8)
  | extended (escape low : UInt8)
  deriving DecidableEq

namespace OpcodeTag

def firstEscape : UInt8 := 251

def lastEscape : UInt8 := 255

/-- Whether a byte announces a second one. -/
def isEscape (byte : UInt8) : Bool :=
  decide (firstEscape ≤ byte) && decide (byte ≤ lastEscape)

/-- The 16-bit number whose high and low byte are given. -/
def wordOfBytes (high low : UInt8) : UInt16 :=
  high.toUInt16 <<< 8 ||| low.toUInt16

def code : OpcodeTag → UInt16
  | short byte => byte.toUInt16
  | extended escape low => wordOfBytes escape low

def bytes : OpcodeTag → List UInt8
  | short byte => [byte]
  | extended escape low => [escape, low]

/-- A code below 256 is its own byte, unless that byte is an escape; a larger one needs an escape as its high byte. -/
def ofCode? (code : UInt16) : Option OpcodeTag :=
  let high := (code >>> 8).toUInt8
  let low := code.toUInt8
  if high == 0 then
    if isEscape low then none else some (short low)
  else if isEscape high then
    some (extended high low)
  else
    none

end OpcodeTag

namespace Opcode

/-- Every opcode, in the order of its code. -/
def all : List Opcode :=
  [nop, getType, typeIs, typeEquals, tupleArity, tupleItem, listHead, listTail, newTuple, listEmpty, listAdd,
    loadBoolean, loadInteger, loadFloat, loadType, loadString, assignVariable, readVariable, assignMutableVariable,
    loadOpcode, newExpression, evaluateExpression]

def code : Opcode → UInt16
  | nop => 0
  | getType => 1
  | typeIs => 2
  | typeEquals => 3
  | tupleArity => 4
  | tupleItem => 5
  | listHead => 6
  | listTail => 7
  | newTuple => 8
  | listEmpty => 9
  | listAdd => 10
  | loadBoolean => 11
  | loadInteger => 12
  | loadFloat => 13
  | loadType => 14
  | loadString => 15
  | assignVariable => 16
  | readVariable => 17
  | assignMutableVariable => 18
  | loadOpcode => 19
  | newExpression => 0xFB01
  | evaluateExpression => 0xFB02

def name : Opcode → String
  | nop => "Nop"
  | getType => "GetType"
  | typeIs => "TypeIs"
  | typeEquals => "TypeEquals"
  | tupleArity => "TupleArity"
  | tupleItem => "TupleItem"
  | listHead => "ListHead"
  | listTail => "ListTail"
  | newTuple => "NewTuple"
  | listEmpty => "ListEmpty"
  | listAdd => "ListAdd"
  | loadBoolean => "LoadBoolean"
  | loadInteger => "LoadInteger"
  | loadFloat => "LoadFloat"
  | loadType => "LoadType"
  | loadString => "LoadString"
  | assignVariable => "AssignVariable"
  | readVariable => "ReadVariable"
  | assignMutableVariable => "AssignMutableVariable"
  | loadOpcode => "LoadOpcode"
  | newExpression => "NewExpression"
  | evaluateExpression => "EvaluateExpression"

def ofName? (s : String) : Option Opcode :=
  all.find? fun op => op.name == s

def ofCode? (code : UInt16) : Option Opcode :=
  all.find? fun op => op.code == code

def tag (op : Opcode) : OpcodeTag :=
  let high := (op.code >>> 8).toUInt8
  let low := op.code.toUInt8
  if high == 0 then .short low else .extended high low

/-- The number of bytes of the operand, fixed by the opcode alone. -/
def width : Opcode → Nat
  | nop | getType | typeIs | typeEquals | tupleArity | listHead | listTail | listEmpty | listAdd
  | evaluateExpression => 0
  | loadBoolean | tupleItem | newTuple => 1
  | assignVariable | assignMutableVariable | readVariable | loadOpcode | newExpression => 2
  | loadType | loadString => 4
  | loadInteger | loadFloat => 8

@[simp] theorem ofCode?_code (op : Opcode) : ofCode? op.code = some op := by
  cases op <;> rfl

theorem code_tag (op : Opcode) : op.tag.code = op.code := by
  cases op <;> rfl

theorem ofCode?_tag (op : Opcode) : OpcodeTag.ofCode? op.code = some op.tag := by
  cases op <;> rfl

end Opcode

end RefMachine
