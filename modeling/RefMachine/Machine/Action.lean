import RefMachine.Machine

/-!
# From instructions to actions

An instruction is first resolved: all that it requires of its operand, the stack, the scope and the heap is checked, and
nothing is changed. What is left to do is an action. Which of several faults of an instruction is found is fixed by the
order of the checks.
-/

namespace RefMachine

/-- The change that an instruction makes to the machine. -/
inductive Action where
  | skip
  /-- Push a value, with a reference of its own. -/
  | push (v : Value)
  /-- Push the shared string of a text. -/
  | intern (text : String)
  /-- Put a value in the place of the top one, with a reference of its own. -/
  | replace (old new : Value)
  /-- Put a truth value in the place of the two types on top. -/
  | compare (result : Bool)
  /-- Make a tuple of the top values. -/
  | pack (arity : Nat)
  /-- Make an expression of the type on top and of as many pairs below it as there are instructions. -/
  | quote (e : Expression)
  /-- Put the value of an expression in the place of the handle on top. -/
  | evaluate (handle : Value) (e : Expression)
  /-- Put the top value in front of the list below it. -/
  | cons (head : Value) (tail : Handle)
  /-- Bind a variable to the top value, which stays on top. -/
  | assign (v : Value) (index : Nat) (mutability : Mutability)

/-- Why an instruction stopped its expression. -/
inductive Halt where
  /-- The program is wrong, and this is to be reported. -/
  | diagnostic (d : Diagnostic)
  /-- The program is wrong, and that was reported. -/
  | reported
  | fault (f : Fault)
  deriving DecidableEq

/-- The outcome of a check. -/
abbrev Check := Except Halt

namespace Check

def reject (d : Diagnostic) : Check α :=
  .error (.diagnostic d)

def fault (f : Fault) : Check α :=
  .error (.fault f)

/-- The handle of a value that has to be of one kind. -/
def handle (op : Opcode) (k : Kind) (v : Value) : Check Handle :=
  match v.handleOf? k with
  | some h => .ok h
  | none => reject (.typeMismatch op k.ty v.ty)

/-- The tag of a value that has to be a type. -/
def typeTag (op : Opcode) (v : Value) : Check TypeTag :=
  match v.typeTag? with
  | some tag => .ok tag
  | none => reject (.typeMismatch op .type v.ty)

/-- The object at a handle. -/
def object (heap : Heap) (k : Kind) (h : Handle) : Check k.Content :=
  match heap.fetch k h with
  | .ok x => .ok x
  | .error e => fault (.heap e)

/-- The object of a value that has to be of one kind. -/
def objectOf (heap : Heap) (op : Opcode) (k : Kind) (v : Value) : Check k.Content := do
  object heap k (← handle op k v)

/-- The cell of a value that has to be a list, and not the empty one. -/
def cellOf (heap : Heap) (op : Opcode) (v : Value) : Check Cell := do
  let h ← handle op .list v
  if h.isSentinel then reject .emptyList else object heap .list h

/-- The instruction of an opcode and any value. An opcode without an operand drops the value. -/
def instruction (op : Opcode) (operand : Value) : Check Instruction :=
  let i : Instruction := ⟨op, if op.width = 0 then .error else operand⟩
  if i.fits then .ok i else reject (.invalidOperand i.opcode i.operand)

/-- The instruction that a tuple of an opcode and an operand spells. -/
def reflect (heap : Heap) (op : Opcode) (index : Nat) (v : Value) : Check Instruction := do
  match (← objectOf heap op .tuple v : List Value) with
  | [.opcode target, operand] => instruction target operand
  | _ => reject (.malformedInstruction index)

end Check

namespace Machine

/-- The top value of the frame. -/
def top (m : Machine) (op : Opcode) : Check Value :=
  match m.frame with
  | v :: _ => .ok v
  | [] => .reject (.stackUnderflow op)

/-- The top two values of the frame, the topmost first. -/
def topTwo (m : Machine) (op : Opcode) : Check (Value × Value) :=
  match m.frame with
  | v :: w :: _ => .ok (v, w)
  | _ => .reject (.stackUnderflow op)

/-- The types in the top two places, the lower one first. -/
def typePair (m : Machine) (op : Opcode) : Check (TypeTag × TypeTag) := do
  let (upper, lower) ← m.topTwo op
  let right ← Check.typeTag op upper
  let left ← Check.typeTag op lower
  return (left, right)

/-- The value on top and the `count` values below it. -/
def topAndBelow (m : Machine) (op : Opcode) (count : Nat) : Check (Value × List Value) :=
  match m.frame with
  | v :: rest => if rest.length < count then .reject (.stackUnderflow op) else .ok (v, rest.take count)
  | [] => .reject (.stackUnderflow op)

/-- The expression of a type on top and of the pairs below it, the first pair being the topmost. -/
def quotation (m : Machine) (op : Opcode) (count : Nat) : Check Expression := do
  let (v, pairs) ← m.topAndBelow op count
  let tag ← Check.typeTag op v
  let code ← pairs.zipIdx.mapM fun pair => Check.reflect m.heap op pair.2 pair.1
  return ⟨tag, code⟩

/-- The expression on top, unless as many are being evaluated as may be. -/
def nestedExpression (m : Machine) (op : Opcode) (v : Value) : Check Expression := do
  let h ← Check.handle op .expression v
  if m.limits.maxDepth ≤ m.depth then
    .reject (.depthExceeded m.limits.maxDepth)
  else
    Check.object m.heap .expression h

/-- The value of a variable that is set. -/
def variableValue (m : Machine) (index : Nat) : Check Value :=
  match m.scope.value index with
  | .ok v => if v.isError then .reject (.unsetVariable index) else .ok v
  | .error e => .fault (.ofScopeError e)

/-- The action of an operation. The opcode is the one that the operation came from. -/
def resolveOperation (m : Machine) (op : Opcode) : Operation → Check Action
  | .nop => return .skip
  | .push v => return .push v
  | .pushLiteral id =>
    match m.literals.text? id with
    | some text => return .intern text
    | none => .fault (.unknownLiteral id)
  | .getType => do
    let v ← m.top op
    return .replace v (.type v.ty.tag)
  | .typeIs => do
    let (left, right) ← m.typePair op
    return .compare (left.isA right)
  | .typeEquals => do
    let (left, right) ← m.typePair op
    return .compare (left = right)
  | .tupleArity => do
    let v ← m.top op
    let items : List Value ← Check.objectOf m.heap op .tuple v
    return .replace v (.ofCount items.length)
  | .tupleItem index => do
    let v ← m.top op
    let items : List Value ← Check.objectOf m.heap op .tuple v
    match items[index]? with
    | some item => return .replace v item
    | none => .reject (.tupleIndexOutOfRange index items.length)
  | .newTuple arity =>
    if m.frame.length < arity then .reject (.stackUnderflow op) else return .pack arity
  | .newExpression count => do
    return .quote (← m.quotation op count)
  | .evaluateExpression => do
    let v ← m.top op
    return .evaluate v (← m.nestedExpression op v)
  | .listAdd => do
    let (head, list) ← m.topTwo op
    return .cons head (← Check.handle op .list list)
  | .listHead => do
    let v ← m.top op
    let cell ← Check.cellOf m.heap op v
    return .replace v cell.head
  | .listTail => do
    let v ← m.top op
    let cell ← Check.cellOf m.heap op v
    return .replace v (.ref .list cell.tail)
  | .assign index mutability => do
    return .assign (← m.top op) index mutability
  | .read index => do
    return .push (← m.variableValue index)

/-- The action of an instruction. An operand that the opcode does not take is the first thing to be found. -/
def resolve (m : Machine) (i : Instruction) : Check Action :=
  match i.operation? with
  | some operation => m.resolveOperation i.opcode operation
  | none => .reject (.invalidOperand i.opcode i.operand)

end Machine

end RefMachine
