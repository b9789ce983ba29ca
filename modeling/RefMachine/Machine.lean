import RefMachine.Scope

/-!
# The machine

The state of a session: a heap, a scope, an operand stack, the queued diagnostics and the literals. Every value on the
stack holds one reference. The running expression owns the stack above its base, and nothing below is looked at or
popped.
-/

namespace RefMachine

/-! ## What can go wrong

A diagnostic says what is wrong with a program. It is queued as data and never interrupts the session. A fault means that
the session and the program disagree, or that references were miscounted. It ends the evaluation at once and nothing is
tidied up.
-/

inductive Diagnostic where
  /-- An expression left nothing to return. -/
  | emptyStackOnExit
  /-- An expression left more than its result. -/
  | stackImbalance (entry exit : Nat)
  | immutableRebind
  | unsetVariable (index : Nat)
  /-- An expression evaluated by another one yielded the error value. -/
  | nestedEvaluation
  | depthExceeded (limit : Nat)
  /-- The empty list was asked for its head or tail. -/
  | emptyList
  /-- An instruction needs more values than its expression has pushed. -/
  | stackUnderflow (op : Opcode)
  | typeMismatch (op : Opcode) (expected found : Ty)
  | tupleIndexOutOfRange (index arity : Nat)
  /-- An item of a new expression is no pair of an opcode and an operand. -/
  | malformedInstruction (index : Nat)
  | invalidOperand (op : Opcode) (operand : Value)
  deriving DecidableEq

def Diagnostic.message : Diagnostic → String
  | emptyStackOnExit => "Invalid expression - evaluation stack was empty upon exit."
  | stackImbalance entry exit =>
    "Invalid expression - evaluation stack size was modified. Original size: " ++ toString entry ++
      ", size upon exit: " ++ toString exit ++ "."
  | immutableRebind => "Cannot rebind to immutable variable."
  | unsetVariable index => "Variable " ++ toString index ++ " has not been assigned."
  | nestedEvaluation => "Nested expression evaluated to an error."
  | depthExceeded limit => "Expression nesting exceeded the limit of " ++ toString limit ++ "."
  | emptyList => "The empty list has no head or tail."
  | stackUnderflow op =>
    "Invalid expression - " ++ op.name ++ " needs more values than the evaluation stack holds."
  | typeMismatch op expected found => op.name ++ " expected " ++ expected.name ++ ", found " ++ found.name ++ "."
  | tupleIndexOutOfRange index arity =>
    "Tuple index " ++ toString index ++ " is out of range for a tuple of arity " ++ toString arity ++ "."
  | malformedInstruction index => "Instruction " ++ toString index ++ " is not an (opcode, operand) pair."
  | invalidOperand op operand => op.name ++ " cannot take operand " ++ operand.text ++ "."

inductive Fault where
  | stackUnderflow (op : Opcode)
  | unknownLiteral (id : UInt32)
  | variableOutOfRange (index size : Nat)
  | heap (e : HeapError)
  deriving DecidableEq

namespace Fault

def message : Fault → String
  | stackUnderflow op => op.name ++ " popped from an empty operand stack"
  | unknownLiteral id => "string id " ++ toString id.toNat ++ " is not registered"
  | variableOutOfRange index size =>
    "variable index " ++ toString index ++ " out of range for scope of " ++ toString size
  | heap e => e.message

def ofScopeError : ScopeError → Fault
  | .outOfRange index size => variableOutOfRange index size
  | .heap e => heap e

end Fault

/-! ## The state of a session -/

structure Limits where
  /-- Stack places set aside at the start. -/
  stackCapacity : Nat := 64
  /-- How many expressions may be evaluated inside each other, the outermost left out. -/
  maxDepth : Nat := 256
  deriving DecidableEq

structure Machine where
  heap : Heap := .empty
  scope : Scope := .empty
  /-- Oldest first. -/
  diagnostics : List Diagnostic := []
  literals : Literals := {}
  /-- Top first. -/
  stack : List Value := []
  /-- The size of the stack when the running expression was entered. -/
  base : Nat := 0
  /-- The number of expressions around the running one. -/
  depth : Nat := 0
  limits : Limits := {}

/-- Machine operations. One that fails keeps what it changed before it failed. -/
abbrev MachineM (ε : Type) := EStateM ε Machine

namespace Machine

/-- What the running expression has pushed, top first. -/
def frame (m : Machine) : List Value :=
  m.stack.take (m.stack.length - m.base)

/-- Runs a heap operation. The machine is taken apart first, so that the heap is not shared while it changes. -/
def onHeap (f : HeapM α) : MachineM HeapError α
  | ⟨heap, scope, diagnostics, literals, stack, base, depth, limits⟩ =>
    match f heap with
    | .ok a heap => .ok a ⟨heap, scope, diagnostics, literals, stack, base, depth, limits⟩
    | .error e heap => .error e ⟨heap, scope, diagnostics, literals, stack, base, depth, limits⟩

theorem onHeap_eq (f : HeapM α) (m : Machine) :
    onHeap f m =
      match f m.heap with
      | .ok a heap => .ok a { m with heap := heap }
      | .error e heap => .error e { m with heap := heap } :=
  rfl

/-! ## The stack -/

/-- Pushes a value whose reference the stack takes over. -/
def push (v : Value) : MachineM ε Unit :=
  modify fun m => { m with stack := v :: m.stack }

/-- Pops `n` values without releasing them. -/
def drop (n : Nat) : MachineM ε Unit :=
  modify fun m => { m with stack := m.stack.drop n }

/-- Pops a value together with its reference. -/
def pop? : MachineM ε (Option Value) := do
  match (← get).stack with
  | [] => return none
  | v :: _ =>
    drop 1
    return some v

/-! ## Diagnostics -/

def report (d : Diagnostic) : MachineM ε Unit :=
  modify fun m => { m with diagnostics := m.diagnostics ++ [d] }

/-- A cell for a message in front of the list: a tuple of one string, each with the one reference that its holder
keeps, and so has the cell. -/
def consMessage (message : String) (tail : Handle) : HeapM Handle := do
  let text ← Heap.newString message
  Heap.retain (.ref .string text)
  let tuple ← Heap.newTuple [.ref .string text]
  Heap.retain (.ref .tuple tuple)
  let cell ← Heap.cons (.ref .tuple tuple) tail
  Heap.retain (.ref .list cell)
  return cell

/-- Moves the queue, oldest first, in front of a list. -/
def moveDiagnostics : List Diagnostic → Handle → MachineM HeapError Handle
  | [], list => return list
  | d :: rest, list => do
    modify fun m => { m with diagnostics := rest }
    let cell ← onHeap (consMessage d.message list)
    moveDiagnostics rest cell

/-- Empties the queue into a list of messages, the latest first. -/
def takeDiagnostics : MachineM HeapError Handle := do
  moveDiagnostics (← get).diagnostics .sentinel

/-! ## The scope -/

def setBinding (index : Nat) (binding : Option Binding) : MachineM ε Unit :=
  modify fun m => { m with scope := m.scope.setBinding index binding }

/-- Binds a variable and answers with its value, to which the scope has a reference of its own. A bound variable is
bound again only if it and the request are mutable; a refused request is reported and answers with the error value. -/
def bindVariable (index : Nat) (v : Value) (mutability : Mutability) : MachineM ScopeError Value := do
  match (← get).scope.lookup index with
  | .error e => throw e
  | .ok none =>
    (onHeap (Heap.retain v)).adaptExcept .heap
    setBinding index (some ⟨v, mutability⟩)
    return v
  | .ok (some old) =>
    if mutability = .mutable ∧ old.mutability = .mutable then
      (onHeap (Heap.retain v)).adaptExcept .heap
      (onHeap (Heap.release old.value)).adaptExcept .heap
      setBinding index (some ⟨v, old.mutability⟩)
      return v
    else
      report .immutableRebind
      return .error

/-- Unsets the variables at the given indices, one after the other, and releases each value. -/
def unset : List Nat → MachineM HeapError Unit
  | [] => pure ()
  | index :: rest => do
    match (← get).scope.binding? index with
    | none => unset rest
    | some binding =>
      setBinding index none
      onHeap (Heap.release binding.value)
      unset rest

/-- Unsets every variable. -/
def clearScope : MachineM HeapError Unit := do
  unset (List.range (← get).scope.size)

/-- Widens the scope to all names: the wider scope copies the bindings, and then those of the old one are released. -/
def resizeScope (names : VariableNames) : MachineM HeapError Unit := do
  let old := (← get).scope
  if old.size < names.size then
    let wider ← onHeap (old.copy names)
    modify fun m => { m with scope := wider }
    old.values.forM fun v => onHeap (Heap.release v)

end Machine

/-! ## Carriers -/

/-- A state that has a machine in it, on which operations of the machine can be run. It may keep more than its machine,
for instance a record of what was done. -/
class Carrier (σ : Type) where
  machine : σ → Machine
  run {ε α : Type} : MachineM ε α → EStateM ε σ α
  update : (Machine → Machine) → σ → σ
  /-- Begins a frame on top of the stack. -/
  openFrame : σ → σ
  /-- Goes back from a later state to the frame of an earlier one. -/
  closeFrame (earlier later : σ) : σ

instance : Carrier Machine where
  machine m := m
  run x := x
  update f := f
  openFrame m := { m with base := m.stack.length }
  closeFrame earlier later := { later with base := earlier.base }

@[simp] theorem Carrier.machine_eq (m : Machine) : Carrier.machine m = m :=
  rfl

@[simp] theorem Carrier.run_eq (x : MachineM ε α) : Carrier.run x = x :=
  rfl

namespace Machine

open Carrier

variable {σ : Type} [Carrier σ]

/-- Pops up to `n` values and releases each. -/
def discard : (n : Nat) → EStateM HeapError σ Unit
  | 0 => pure ()
  | n + 1 => do
    match ← run pop? with
    | none => pure ()
    | some v =>
      run (onHeap (Heap.release v))
      discard n

/-- Makes a tuple of the top `arity` values of the frame, the topmost first. The tuple takes over their references. -/
def packTuple (arity : Nat) : EStateM Fault σ Handle := do
  let m := machine (← get)
  if m.frame.length < arity then
    throw (.stackUnderflow .newTuple)
  else
    run (drop arity)
    run ((onHeap (Heap.newTuple (m.stack.take arity))).adaptExcept .heap)

end Machine

end RefMachine
