import RefMachine.Machine.Action

/-!
# Evaluation

An expression runs its instructions one after the other in a frame of its own on the stack, and yields the one value
that it leaves there. What is wrong with a program is reported, the frame is released and the error value is yielded. An
expression may evaluate others, nested up to a limit, so every evaluation ends.
-/

namespace RefMachine

namespace Machine

open Carrier

/-- Runs a heap operation of an instruction; its failure is a fault. -/
def faulting (f : HeapM α) : MachineM Halt α :=
  (onHeap f).adaptExcept fun e => .fault (.heap e)

/-- Applies a change to the state after an operation, whether or not it failed. -/
def afterwards (f : σ → σ) : EStateM.Result ε σ α → EStateM.Result ε σ α
  | .ok a s => .ok a (f s)
  | .error e s => .error e (f s)

variable {σ : Type} [Carrier σ]

/-- Pushes a value with a reference of its own. -/
def share (v : Value) : EStateM Halt σ Unit := do
  run (faulting (Heap.retain v))
  run (push v)

/-- Evaluates an expression one level deeper. -/
def nest (evaluate : Expression → EStateM Fault σ Value) (e : Expression) : EStateM Fault σ Value := fun s =>
  afterwards (update fun m => { m with depth := m.depth - 1 })
    (evaluate e (update (fun m => { m with depth := m.depth + 1 }) s))

/-- Carries out an action, given how nested expressions are evaluated. -/
def perform (evaluate : Expression → EStateM Fault σ Value) : Action → EStateM Halt σ Unit
  | .skip => pure ()
  | .push v => share v
  | .intern text => do
    let h ← run (faulting (Heap.internString text))
    share (.ref .string h)
  | .replace old new => do
    run (faulting (Heap.retain new))
    run (drop 1)
    run (push new)
    run (faulting (Heap.release old))
  | .compare result => do
    run (drop 2)
    run (push (.boolean result))
  | .pack arity => do
    let h ← (packTuple arity).adaptExcept .fault
    share (.ref .tuple h)
  | .quote e => do
    run (drop 1)
    (discard e.code.length).adaptExcept fun e => .fault (.heap e)
    let h ← run (faulting (Heap.newExpression e))
    share (.ref .expression h)
  | .evaluate handle e => do
    run (drop 1)
    run (faulting (Heap.release handle))
    let v ← (nest evaluate e).adaptExcept .fault
    if v.isError then
      throw (.diagnostic .nestedEvaluation)
    else
      run (push v)
  | .cons head tail => do
    run (drop 2)
    let h ← run (faulting (Heap.cons head tail))
    share (.ref .list h)
  | .assign v index mutability => do
    run (drop 1)
    let bound ← run ((bindVariable index v mutability).adaptExcept fun e => .fault (.ofScopeError e))
    if bound.isError then
      run (faulting (Heap.release v))
      throw .reported
    else
      run (push bound)

/-- Carries out one instruction. -/
def step (evaluate : Expression → EStateM Fault σ Value) (i : Instruction) : EStateM Halt σ Unit := do
  match (machine (← get)).resolve i with
  | .ok action => perform evaluate action
  | .error halt => throw halt

/-- Carries out instructions until one stops the expression. -/
def runCode (evaluate : Expression → EStateM Fault σ Value) : List Instruction → EStateM Halt σ Unit
  | [] => pure ()
  | i :: rest => do
    step evaluate i
    runCode evaluate rest

/-- Releases the values above `entry`. -/
def unwindTo (entry : Nat) : EStateM Fault σ Unit := do
  (discard ((machine (← get)).stack.length - entry)).adaptExcept .heap

/-- Gives up an expression that was entered with `entry` values on the stack. -/
def abandon (entry : Nat) : EStateM Fault σ Value := do
  unwindTo entry
  return .error

/-- Takes the result of an expression that ran to its end. -/
def takeResult (entry : Nat) : EStateM Fault σ Value := do
  let size := (machine (← get)).stack.length
  if size ≤ entry then
    run (report .emptyStackOnExit)
    return .error
  else
    let v := (← run pop?).getD .error
    if size - 1 = entry then
      return v
    else
      run (report (.stackImbalance entry (size - 1)))
      run ((onHeap (Heap.release v)).adaptExcept .heap)
      abandon entry

/-- What an expression yields once its instructions have run or one has stopped it. -/
def leave (entry : Nat) : EStateM.Result Halt σ Unit → EStateM.Result Fault σ Value
  | .ok () s => takeResult entry s
  | .error (.diagnostic d) s => (do run (report d); abandon entry : EStateM Fault σ Value) s
  | .error .reported s => abandon entry s
  | .error (.fault f) s => .error f s

/-- Evaluates an expression in a new frame. An expression without instructions yields the error value, and nothing is
reported. -/
def enter (evaluate : Expression → EStateM Fault σ Value) (e : Expression) : EStateM Fault σ Value := fun s =>
  if e.code.isEmpty then
    .ok .error s
  else
    afterwards (closeFrame s) (leave (machine s).stack.length (runCode evaluate e.code (openFrame s)))

/-- Evaluates an expression that may nest others `room` deep. Without room, no instruction gets as far as evaluating
one. -/
def evaluateWithin : (room : Nat) → Expression → EStateM Fault σ Value
  | 0 => enter fun _ => pure .error
  | room + 1 => enter (evaluateWithin room)

/-- Evaluates an expression on any carrier. -/
def evaluateOn (e : Expression) : EStateM Fault σ Value := fun s =>
  evaluateWithin ((machine s).limits.maxDepth - (machine s).depth) e s

/-- Evaluates an expression. The value comes with a reference that the caller owns. -/
def evaluate (e : Expression) : MachineM Fault Value :=
  evaluateOn e

end Machine

end RefMachine
