import RefMachine.Value

/-!
# Instructions and expressions

An instruction pairs an opcode with any value as its operand. What it asks for is an `Operation`, which exists only if
the operand is one that the opcode takes. An expression is a list of instructions under a declared result type.
-/

namespace RefMachine

/-- Whether a variable may be bound again. -/
inductive Mutability where
  | mutable | immutable
  deriving DecidableEq

/-- An opcode without an operand carries `Value.error`. -/
structure Instruction where
  opcode : Opcode
  operand : Value := .error
  deriving DecidableEq

/-- What a well-formed instruction asks for. -/
inductive Operation where
  | nop
  /-- Push a value that is no heap object of its own. -/
  | push (v : Value)
  /-- Push the text registered under a number. -/
  | pushLiteral (id : UInt32)
  | getType
  | typeIs
  | typeEquals
  | tupleArity
  | tupleItem (index : Nat)
  | newTuple (arity : Nat)
  | newExpression (count : Nat)
  | evaluateExpression
  | listAdd
  | listHead
  | listTail
  | assign (index : Nat) (mutability : Mutability)
  | read (index : Nat)
  deriving DecidableEq

namespace Instruction

/-- The operation of an opcode that takes no operand. -/
def bare? (i : Instruction) (operation : Operation) : Option Operation :=
  if i.operand = .error then some operation else none

/-- Pushes an operand of the given type. -/
def constant? (i : Instruction) (t : Ty) : Option Operation :=
  if i.operand.ty = t then some (.push i.operand) else none

/-- What the instruction asks for; `none` if the operand is of another kind than the opcode takes, or an integer too
large or too small for the operand's bytes. -/
def operation? (i : Instruction) : Option Operation :=
  match i.opcode with
  | .nop => i.bare? .nop
  | .getType => i.bare? .getType
  | .typeIs => i.bare? .typeIs
  | .typeEquals => i.bare? .typeEquals
  | .tupleArity => i.bare? .tupleArity
  | .tupleItem => (i.operand.natBelow? 256).map .tupleItem
  | .listHead => i.bare? .listHead
  | .listTail => i.bare? .listTail
  | .newTuple => (i.operand.natBelow? 256).map .newTuple
  | .listEmpty => i.bare? (.push .emptyList)
  | .listAdd => i.bare? .listAdd
  | .loadBoolean => i.constant? .boolean
  | .loadInteger => i.constant? .integer
  | .loadFloat => i.constant? .float
  | .loadType => i.constant? .type
  | .loadString => (i.operand.handleOf? .string).map fun h => .pushLiteral h.raw
  | .assignVariable => (i.operand.natBelow? 65536).map fun index => .assign index .immutable
  | .readVariable => (i.operand.natBelow? 65536).map .read
  | .assignMutableVariable => (i.operand.natBelow? 65536).map fun index => .assign index .mutable
  | .loadOpcode => i.constant? .opcode
  | .newExpression => (i.operand.natBelow? 65536).map .newExpression
  | .evaluateExpression => i.bare? .evaluateExpression

/-- Whether the operand is one that the opcode takes. -/
def fits (i : Instruction) : Bool :=
  i.operation?.isSome

def text (i : Instruction) : String :=
  if i.operand.isError then i.opcode.name else i.opcode.name ++ ":" ++ i.operand.text

/-! ## The instructions that fit -/

def nop : Instruction := ⟨.nop, .error⟩

def getType : Instruction := ⟨.getType, .error⟩

def typeIs : Instruction := ⟨.typeIs, .error⟩

def typeEquals : Instruction := ⟨.typeEquals, .error⟩

def tupleArity : Instruction := ⟨.tupleArity, .error⟩

def evaluateExpression : Instruction := ⟨.evaluateExpression, .error⟩

def listEmpty : Instruction := ⟨.listEmpty, .error⟩

def listAdd : Instruction := ⟨.listAdd, .error⟩

def listHead : Instruction := ⟨.listHead, .error⟩

def listTail : Instruction := ⟨.listTail, .error⟩

def loadInteger (n : Int64) : Instruction := ⟨.loadInteger, .integer n⟩

def loadFloat (bits : UInt64) : Instruction := ⟨.loadFloat, .float bits⟩

def loadBoolean (b : Bool) : Instruction := ⟨.loadBoolean, .boolean b⟩

def loadTag (tag : TypeTag) : Instruction := ⟨.loadType, .type tag⟩

def loadType (t : Ty) : Instruction := loadTag t.tag

def loadOpcode (op : Opcode) : Instruction := ⟨.loadOpcode, .opcode op⟩

/-- The operand is the number of a registered text, not a slot of the heap. -/
def loadString (id : UInt32) : Instruction := ⟨.loadString, .ref .string ⟨id⟩⟩

def tupleItem (index : UInt8) : Instruction := ⟨.tupleItem, .integer (.ofNat index.toNat)⟩

def newTuple (arity : UInt8) : Instruction := ⟨.newTuple, .integer (.ofNat arity.toNat)⟩

def newExpression (count : UInt16) : Instruction := ⟨.newExpression, .integer (.ofNat count.toNat)⟩

def readVariable (index : UInt16) : Instruction := ⟨.readVariable, .integer (.ofNat index.toNat)⟩

def assignVariable (index : UInt16) : Mutability → Instruction
  | .mutable => ⟨.assignMutableVariable, .integer (.ofNat index.toNat)⟩
  | .immutable => ⟨.assignVariable, .integer (.ofNat index.toNat)⟩

end Instruction

structure Expression where
  resultType : TypeTag := ⟨0⟩
  code : List Instruction := []
  deriving DecidableEq

namespace Expression

/-- The empty expression of type zero. -/
def empty : Expression := {}

def withType (e : Expression) (tag : TypeTag) : Expression :=
  { e with resultType := tag }

def push (e : Expression) (i : Instruction) : Expression :=
  { e with code := e.code ++ [i] }

def append (e : Expression) (code : List Instruction) : Expression :=
  { e with code := e.code ++ code }

/-- One instruction to a line. -/
def text (e : Expression) : String :=
  "expr<" ++ e.resultType.text ++ ">[" ++ ",".intercalate (e.code.map fun i => "\n  " ++ i.text) ++ "\n]"

/-- The type and the number of instructions. -/
def shortText (e : Expression) : String :=
  "expr<" ++ e.resultType.text ++ ">[" ++ toString e.code.length ++ "]"

end Expression

end RefMachine
