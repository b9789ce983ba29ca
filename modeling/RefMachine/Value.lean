import RefMachine.Ty
import RefMachine.Opcode
import RefMachine.Binary64

/-!
# Values

A value is a small datum of its own or a handle into the heap. Two values are equal when they are of one kind and carry
the same 64-bit payload: handles by slot, floating-point numbers by bit pattern.
-/

namespace RefMachine

/-- The number of a slot in one of the heap's stores. -/
structure Handle where
  raw : UInt32
  deriving DecidableEq

namespace Handle

/-- The first slot, which holds the empty tuple and the empty list in their stores. -/
def sentinel : Handle := ⟨0⟩

def isSentinel (h : Handle) : Bool :=
  h.raw == 0

/-- The slot as a position. -/
def index (h : Handle) : Nat :=
  h.raw.toNat

def text (h : Handle) : String :=
  "Handle(" ++ toString h.index ++ ")"

theorem index_lt (h : Handle) : h.index < UInt32.size :=
  h.raw.toNat_lt_size

theorem index_toUInt32 {i : Nat} (hi : i < UInt32.size) : index ⟨i.toUInt32⟩ = i :=
  UInt32.toNat_ofNat_of_lt hi

@[simp] theorem index_inj {a b : Handle} : a.index = b.index ↔ a = b := by
  cases a
  cases b
  simp [index, UInt32.toNat_inj]

end Handle

/-- The kinds of object that live in the heap. -/
inductive Kind where
  | string | tuple | list | expression
  deriving DecidableEq

namespace Kind

def all : List Kind :=
  [string, tuple, list, expression]

def ty : Kind → Ty
  | string => .string
  | tuple => .tuple
  | list => .list
  | expression => .expression

def name (k : Kind) : String :=
  k.ty.name

/-- The kind whose objects have the given type. -/
def ofTy? (t : Ty) : Option Kind :=
  all.find? fun k => k.ty == t

end Kind

inductive Value where
  /-- The result of what went wrong. -/
  | error
  | boolean (b : Bool)
  | integer (n : Int64)
  /-- A floating-point number, by its bits. -/
  | float (bits : UInt64)
  | type (tag : TypeTag)
  | opcode (op : Opcode)
  /-- A handle into the store of one kind. -/
  | ref (kind : Kind) (handle : Handle)
  deriving DecidableEq

namespace Value

def emptyList : Value := ref .list .sentinel

def emptyTuple : Value := ref .tuple .sentinel

def ty : Value → Ty
  | error => .error
  | boolean _ => .boolean
  | integer _ => .integer
  | float _ => .float
  | type _ => .type
  | opcode _ => .opcode
  | ref k _ => k.ty

/-- The datum in 64 bits; a negative integer in two's complement. -/
def payload : Value → UInt64
  | error => 0
  | boolean b => if b then 1 else 0
  | integer n => n.toUInt64
  | float bits => bits
  | type tag => tag.bits.toUInt64
  | opcode op => op.code.toUInt64
  | ref _ h => h.raw.toUInt64

def isError : Value → Bool
  | error => true
  | _ => false

def handle? : Value → Option Handle
  | ref _ h => some h
  | _ => none

def integer? : Value → Option Int64
  | integer n => some n
  | _ => none

def typeTag? : Value → Option TypeTag
  | type tag => some tag
  | _ => none

/-- The handle of a value of the given kind. -/
def handleOf? (k : Kind) : Value → Option Handle
  | ref k' h => if k' = k then some h else none
  | _ => none

/-- An integer from zero up to `bound`, the bound excluded. -/
def natBelow? (bound : Nat) : Value → Option Nat
  | integer n => if 0 ≤ n.toInt ∧ n.toInt < bound then some n.toInt.toNat else none
  | _ => none

/-- A count as an integer; one past the largest integer is that integer. -/
def ofCount (n : Nat) : Value :=
  integer (.ofNat (min n 0x7FFFFFFFFFFFFFFF))

theorem exists_ofCount_eq (n : Nat) : ∃ k : Int64, ofCount n = integer k ∧ k.toInt = min n 0x7FFFFFFFFFFFFFFF := by
  have hlt : min n 0x7FFFFFFFFFFFFFFF < 2 ^ 63 := by omega
  exact ⟨_, rfl, Int64.toInt_ofNat_of_lt hlt⟩

/-- The text that needs no heap: a handle is its kind and slot. -/
def text : Value → String
  | error => "#Error#"
  | boolean b => if b then "true" else "false"
  | integer n => toString n.toInt
  | float bits => (Binary64.ofBits bits).text
  | type tag => "<" ++ tag.text ++ ">"
  | opcode op => "|" ++ op.name ++ "|"
  | ref k h => k.name ++ "#" ++ toString h.index

end Value

end RefMachine
