import RefMachine.Heap.Release
import RefMachine.Heap.Dump
import RefMachine.Names

/-!
# Scopes

A scope is a row of variables, as many as there were names when it was made. A variable is unset until it is bound; its
first binding says whether it may be bound again. A bound variable holds one reference to its value.
-/

namespace RefMachine

structure Binding where
  value : Value
  mutability : Mutability
  deriving DecidableEq

/-- A named place for a binding. -/
structure Variable where
  name : String
  binding : Option Binding := none
  deriving DecidableEq

structure Scope where
  slots : Array Variable := #[]

inductive ScopeError where
  | outOfRange (index size : Nat)
  | heap (e : HeapError)
  deriving DecidableEq

def ScopeError.message : ScopeError → String
  | outOfRange index size =>
    "variable index " ++ toString index ++ " out of range for scope of " ++ toString size
  | heap e => e.message

/-- A scope with every variable unset. -/
def VariableNames.scope (names : VariableNames) : Scope :=
  ⟨names.registry.texts.map fun name => { name := name }⟩

namespace Scope

def empty : Scope := {}

def size (scope : Scope) : Nat :=
  scope.slots.size

def binding? (scope : Scope) (index : Nat) : Option Binding :=
  scope.slots[index]?.bind Variable.binding

/-- The binding of a variable in range. -/
def lookup (scope : Scope) (index : Nat) : Except ScopeError (Option Binding) :=
  match scope.slots[index]? with
  | some x => .ok x.binding
  | none => .error (.outOfRange index scope.size)

/-- The value of a variable; the error value while it is unset. -/
def value (scope : Scope) (index : Nat) : Except ScopeError Value :=
  match scope.lookup index with
  | .ok (some binding) => .ok binding.value
  | .ok none => .ok .error
  | .error e => .error e

def mutability (scope : Scope) (index : Nat) : Except ScopeError (Option Mutability) :=
  (scope.lookup index).map fun binding => binding.map Binding.mutability

def setBinding (scope : Scope) (index : Nat) (binding : Option Binding) : Scope :=
  ⟨scope.slots.modify index fun x => { x with binding := binding }⟩

/-- The values of the bound variables, in order. -/
def values (scope : Scope) : List Value :=
  scope.slots.toList.filterMap fun x => x.binding.map Binding.value

/-- A scope for the given names that has the bindings of this one, with a reference of its own to each value. -/
def copy (scope : Scope) (names : VariableNames) : HeapM Scope := do
  let slots ← names.registry.texts.toList.zipIdx.mapM fun (name, index) => do
    match scope.binding? index with
    | some binding =>
      Heap.retain binding.value
      return { name := name, binding := some binding }
    | none => return { name := name }
  return ⟨slots.toArray⟩

/-- An expression is shown by its short form, any other value in full, and an unset variable with nothing. -/
def bindingText (heap : Heap) : Option Binding → String
  | some ⟨.ref .expression h, _⟩ =>
    ((heap.expressions.get? h).map Expression.shortText).getD (Value.text (.ref .expression h))
  | some ⟨v, _⟩ => heap.text v
  | none => ""

/-- One variable to a line. -/
def text (scope : Scope) (heap : Heap) : String :=
  if scope.slots.isEmpty then
    "Scope[]"
  else
    "Scope[" ++
      ",".intercalate (scope.slots.toList.map fun x =>
        "\n  \x7b" ++ x.name ++ "," ++ bindingText heap x.binding ++ "\x7d") ++
      "\n]"

end Scope

end RefMachine
