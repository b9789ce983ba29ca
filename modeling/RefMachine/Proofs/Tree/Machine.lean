import RefMachine.Machine.Evaluate
import RefMachine.Proofs.Heap.Unfold

/-!
# A machine of trees

The machine without a heap: the stack and the variables hold trees, which are copied and dropped at will, so there is
nothing to count and nothing that could dangle. Instructions, frames, limits and diagnostics are those of `Machine`. Only
the operand that a diagnostic quotes has lost its slot (`Value.erase`).
-/

namespace RefMachine

/-- The value with nothing left of a handle but its kind. -/
def Value.erase : Value → Value
  | ref k _ => ref k .sentinel
  | v => v

def Diagnostic.erase : Diagnostic → Diagnostic
  | invalidOperand op operand => invalidOperand op operand.erase
  | d => d

def Halt.erase : Halt → Halt
  | diagnostic d => diagnostic d.erase
  | halt => halt

namespace Tree

/-- The tree of a constant, which is no handle or the empty list. -/
def constant (v : Value) : Tree :=
  v.tree?.getD (.list [])

/-- The tree as the operand of an instruction. No operand is made of what would live in a heap. -/
def toOperand : Tree → Value
  | error => .error
  | boolean b => .boolean b
  | integer n => .integer n
  | float bits => .float bits
  | type tag => .type tag
  | opcode op => .opcode op
  | string _ => .ref .string .sentinel
  | tuple _ => .ref .tuple .sentinel
  | list _ => .ref .list .sentinel
  | expression _ => .ref .expression .sentinel

/-- The tag of a tree that has to be a type. -/
def typeTag (op : Opcode) : Tree → Check TypeTag
  | type tag => .ok tag
  | x => .reject (.typeMismatch op .type x.ty)

/-- The items of a tree that has to be a tuple. -/
def items (op : Opcode) : Tree → Check (List Tree)
  | tuple items => .ok items
  | x => .reject (.typeMismatch op .tuple x.ty)

/-- The elements of a tree that has to be a list. -/
def elements (op : Opcode) : Tree → Check (List Tree)
  | list elements => .ok elements
  | x => .reject (.typeMismatch op .list x.ty)

/-- The expression that a tree has to be. -/
def quoted (op : Opcode) : Tree → Check Expression
  | expression e => .ok e
  | x => .reject (.typeMismatch op .expression x.ty)

/-- The head and the tail of a tree that has to be a list, and not the empty one. -/
def cell (op : Opcode) (x : Tree) : Check (Tree × List Tree) := do
  match ← x.elements op with
  | head :: tail => return (head, tail)
  | [] => .reject .emptyList

/-- The instruction that a tuple of an opcode and an operand spells. -/
def reflect (op : Opcode) (index : Nat) (x : Tree) : Check Instruction := do
  match ← x.items op with
  | [.opcode target, operand] => Check.instruction target operand.toOperand
  | _ => .reject (.malformedInstruction index)

end Tree

structure TreeBinding where
  value : Tree
  mutability : Mutability

structure TreeMachine where
  /-- The variables, `none` while unset. -/
  scope : List (Option TreeBinding) := []
  /-- Oldest first. -/
  diagnostics : List Diagnostic := []
  literals : Literals := {}
  /-- Top first. -/
  stack : List Tree := []
  base : Nat := 0
  depth : Nat := 0
  limits : Limits := {}

/-- The change that an instruction makes to a machine of trees. -/
inductive Move where
  | skip
  /-- Put a tree in the place of the top `taken` ones. -/
  | put (taken : Nat) (x : Tree)
  /-- Put what an expression yields in the place of the top tree. -/
  | evaluate (e : Expression)
  /-- Bind a variable to the top tree, which stays on top. -/
  | assign (x : Tree) (index : Nat) (mutability : Mutability)

namespace TreeMachine

def frame (t : TreeMachine) : List Tree :=
  t.stack.take (t.stack.length - t.base)

def binding? (t : TreeMachine) (index : Nat) : Option TreeBinding :=
  t.scope[index]?.join

/-! ## Resolving instructions -/

def top (t : TreeMachine) (op : Opcode) : Check Tree :=
  match t.frame with
  | x :: _ => .ok x
  | [] => .reject (.stackUnderflow op)

def topTwo (t : TreeMachine) (op : Opcode) : Check (Tree × Tree) :=
  match t.frame with
  | x :: y :: _ => .ok (x, y)
  | _ => .reject (.stackUnderflow op)

/-- The types in the top two places, the lower one first. -/
def typePair (t : TreeMachine) (op : Opcode) : Check (TypeTag × TypeTag) := do
  let (upper, lower) ← t.topTwo op
  let right ← upper.typeTag op
  let left ← lower.typeTag op
  return (left, right)

def topAndBelow (t : TreeMachine) (op : Opcode) (count : Nat) : Check (Tree × List Tree) :=
  match t.frame with
  | x :: rest => if rest.length < count then .reject (.stackUnderflow op) else .ok (x, rest.take count)
  | [] => .reject (.stackUnderflow op)

/-- The expression of a type on top and of the pairs below it, the first pair being the topmost. -/
def quotation (t : TreeMachine) (op : Opcode) (count : Nat) : Check Expression := do
  let (x, pairs) ← t.topAndBelow op count
  let tag ← x.typeTag op
  let code ← pairs.zipIdx.mapM fun pair => pair.1.reflect op pair.2
  return ⟨tag, code⟩

def nestedExpression (t : TreeMachine) (op : Opcode) (x : Tree) : Check Expression := do
  let e ← x.quoted op
  if t.limits.maxDepth ≤ t.depth then
    .reject (.depthExceeded t.limits.maxDepth)
  else
    return e

/-- The tree of a variable that is set. -/
def variableValue (t : TreeMachine) (index : Nat) : Check Tree :=
  if index < t.scope.length then
    match t.binding? index with
    | some b => if b.value.isError then .reject (.unsetVariable index) else .ok b.value
    | none => .reject (.unsetVariable index)
  else
    .fault (.variableOutOfRange index t.scope.length)

/-- The move of an operation. Tags, the test of one tag against another and counts are those of the machine itself; what
they come to is said in `Ty.testBit_tag`, `TypeTag.isA_iff` and `Value.exists_ofCount_eq`. -/
def resolveOperation (t : TreeMachine) (op : Opcode) : Operation → Check Move
  | .nop => return .skip
  | .push v => return .put 0 (.constant v)
  | .pushLiteral id =>
    match t.literals.text? id with
    | some text => return .put 0 (.string text)
    | none => .fault (.unknownLiteral id)
  | .getType => do
    let x ← t.top op
    return .put 1 (.type x.ty.tag)
  | .typeIs => do
    let (left, right) ← t.typePair op
    return .put 2 (.boolean (left.isA right))
  | .typeEquals => do
    let (left, right) ← t.typePair op
    return .put 2 (.boolean (left = right))
  | .tupleArity => do
    let x ← t.top op
    let items ← x.items op
    return .put 1 (.constant (.ofCount items.length))
  | .tupleItem index => do
    let x ← t.top op
    let items ← x.items op
    match items[index]? with
    | some item => return .put 1 item
    | none => .reject (.tupleIndexOutOfRange index items.length)
  | .newTuple arity =>
    if t.frame.length < arity then
      .reject (.stackUnderflow op)
    else
      return .put arity (.tuple (t.stack.take arity))
  | .newExpression count => do
    let e ← t.quotation op count
    return .put (e.code.length + 1) (.expression e)
  | .evaluateExpression => do
    let x ← t.top op
    return .evaluate (← t.nestedExpression op x)
  | .listAdd => do
    let (head, list) ← t.topTwo op
    let tail ← list.elements op
    return .put 2 (.list (head :: tail))
  | .listHead => do
    let x ← t.top op
    let (head, _) ← x.cell op
    return .put 1 head
  | .listTail => do
    let x ← t.top op
    let (_, tail) ← x.cell op
    return .put 1 (.list tail)
  | .assign index mutability => do
    return .assign (← t.top op) index mutability
  | .read index => do
    return .put 0 (← t.variableValue index)

def resolve (t : TreeMachine) (i : Instruction) : Check Move :=
  match i.operation? with
  | some operation => t.resolveOperation i.opcode operation
  | none => .reject (.invalidOperand i.opcode i.operand.erase)

/-! ## Carrying out instructions -/

abbrev dropped (t : TreeMachine) (n : Nat) : TreeMachine :=
  { t with stack := t.stack.drop n }

abbrev pushed (t : TreeMachine) (x : Tree) : TreeMachine :=
  { t with stack := x :: t.stack }

abbrev reported (t : TreeMachine) (d : Diagnostic) : TreeMachine :=
  { t with diagnostics := t.diagnostics ++ [d] }

/-- Whether a request to bind a variable is granted: the variable is unset, or it and the request are mutable. -/
def accepts (t : TreeMachine) (index : Nat) (mutability : Mutability) : Bool :=
  match t.binding? index with
  | none => true
  | some old => mutability = .mutable ∧ old.mutability = .mutable

/-- Binds a variable and answers with its tree, or with the error if the request is refused. -/
def bindVariable (t : TreeMachine) (index : Nat) (x : Tree) (mutability : Mutability) : Tree × TreeMachine :=
  if t.accepts index mutability then
    (x, { t with scope := t.scope.set index (some ⟨x, mutability⟩) })
  else
    (.error, t.reported .immutableRebind)

/-- Binds a variable and pushes its tree. An error stops the expression, also one that was bound. -/
def assign (x : Tree) (index : Nat) (mutability : Mutability) (t : TreeMachine) :
    EStateM.Result Halt TreeMachine Unit :=
  if index < t.scope.length then
    let (bound, t') := t.bindVariable index x mutability
    if bound.isError then .error .reported t' else .ok () (t'.pushed bound)
  else
    .error (.fault (.variableOutOfRange index t.scope.length)) t

/-- The machine in which a nested expression is entered. -/
abbrev descended (t : TreeMachine) : TreeMachine :=
  { t with stack := t.stack.drop 1, depth := t.depth + 1 }

/-- Goes on with what a nested expression yielded. -/
def ascend : EStateM.Result Fault TreeMachine Tree → EStateM.Result Halt TreeMachine Unit
  | .ok x t =>
    if x.isError then .error (.diagnostic .nestedEvaluation) { t with depth := t.depth - 1 }
    else .ok () { t with stack := x :: t.stack, depth := t.depth - 1 }
  | .error f t => .error (.fault f) { t with depth := t.depth - 1 }

/-- Makes a move, given how nested expressions are evaluated. -/
def perform (evaluate : Expression → EStateM Fault TreeMachine Tree) :
    Move → TreeMachine → EStateM.Result Halt TreeMachine Unit
  | .skip, t => .ok () t
  | .put taken x, t => .ok () ((t.dropped taken).pushed x)
  | .evaluate e, t => ascend (evaluate e t.descended)
  | .assign x index mutability, t => assign x index mutability (t.dropped 1)

def step (evaluate : Expression → EStateM Fault TreeMachine Tree) (i : Instruction) (t : TreeMachine) :
    EStateM.Result Halt TreeMachine Unit :=
  match t.resolve i with
  | .ok move => perform evaluate move t
  | .error halt => .error halt t

def runCode (evaluate : Expression → EStateM Fault TreeMachine Tree) :
    List Instruction → TreeMachine → EStateM.Result Halt TreeMachine Unit
  | [], t => .ok () t
  | i :: rest, t =>
    match step evaluate i t with
    | .ok () t' => runCode evaluate rest t'
    | .error halt t' => .error halt t'

/-- The machine with the stack that an expression found, and what there is to report of the expression. -/
abbrev unwound (t : TreeMachine) (entry : Nat) (reports : List Diagnostic) : TreeMachine :=
  { t with stack := t.stack.drop (t.stack.length - entry), diagnostics := t.diagnostics ++ reports }

/-- What an expression yields that was entered with `entry` trees on the stack and ran to its end. -/
def takeResult (entry : Nat) (t : TreeMachine) : EStateM.Result Fault TreeMachine Tree :=
  match t.stack.take (t.stack.length - entry) with
  | [] => .ok .error (t.unwound entry [.emptyStackOnExit])
  | [x] => .ok x (t.unwound entry [])
  | _ :: _ :: _ => .ok .error (t.unwound entry [.stackImbalance entry (t.stack.length - 1)])

/-- What an expression yields once its instructions have run or one has stopped it. -/
def leave (entry : Nat) : EStateM.Result Halt TreeMachine Unit → EStateM.Result Fault TreeMachine Tree
  | .ok () t => takeResult entry t
  | .error (.diagnostic d) t => .ok .error (t.unwound entry [d])
  | .error .reported t => .ok .error (t.unwound entry [])
  | .error (.fault f) t => .error f t

def afterwards (f : TreeMachine → TreeMachine) :
    EStateM.Result Fault TreeMachine Tree → EStateM.Result Fault TreeMachine Tree
  | .ok x t => .ok x (f t)
  | .error e t => .error e (f t)

/-- Evaluates an expression in a new frame. -/
def enter (evaluate : Expression → EStateM Fault TreeMachine Tree) (e : Expression) : EStateM Fault TreeMachine Tree :=
  fun t =>
    if e.code.isEmpty then
      .ok .error t
    else
      afterwards (fun t' => { t' with base := t.base })
        (leave t.stack.length (runCode evaluate e.code { t with base := t.stack.length }))

/-- Evaluates an expression that may nest others `room` deep. -/
def evaluateWithin : (room : Nat) → Expression → EStateM Fault TreeMachine Tree
  | 0 => enter fun _ t => .ok .error t
  | room + 1 => enter (evaluateWithin room)

/-- Evaluates an expression. -/
def evaluate (e : Expression) : EStateM Fault TreeMachine Tree := fun t =>
  evaluateWithin (t.limits.maxDepth - t.depth) e t

end TreeMachine

end RefMachine
