import Std.Data.HashMap

/-!
# Variable names and literals

A registry numbers texts from zero in the order of their first arrival, and looks them up in both directions. Names of
variables and texts of literals are numbered in this way. A variable's number is a 16-bit index, so there is a last one;
a literal's number is a 32-bit word.
-/

namespace RefMachine

structure Registry where
  /-- The texts, each at its number. -/
  texts : Array String := #[]
  /-- The number of each text. -/
  numbers : Std.HashMap String Nat := ∅

namespace Registry

def empty : Registry := {}

def size (r : Registry) : Nat :=
  r.texts.size

def get? (r : Registry) (i : Nat) : Option String :=
  r.texts[i]?

def find? (r : Registry) (text : String) : Option Nat :=
  r.numbers[text]?

/-- Gives the text the next number. -/
def push (r : Registry) (text : String) : Registry :=
  let next := r.size
  { texts := r.texts.push text, numbers := r.numbers.insert text next }

@[simp] theorem size_push (r : Registry) (text : String) : (r.push text).size = r.size + 1 := by
  simp [size, push]

theorem get?_push (r : Registry) (text : String) (i : Nat) :
    (r.push text).get? i = if i = r.size then some text else r.get? i :=
  Array.getElem?_push

theorem find?_push (r : Registry) (text other : String) :
    (r.push text).find? other = if text = other then some r.size else r.find? other := by
  simp [find?, push, size, Std.HashMap.getElem?_insert]

end Registry

/-! ## Names and literals -/

/-- The names of the variables of a session. -/
structure VariableNames where
  registry : Registry := .empty

/-- Every 16-bit index is taken. -/
inductive NameError where
  | tooManyVariables
  deriving DecidableEq

def NameError.message : NameError → String
  | tooManyVariables => "too many variables for a 16-bit index"

namespace VariableNames

def size (names : VariableNames) : Nat :=
  names.registry.size

def name? (names : VariableNames) (index : Nat) : Option String :=
  names.registry.get? index

def index? (names : VariableNames) (name : String) : Option Nat :=
  names.registry.find? name

/-- The index of a name, which is the next one if the name is new. -/
def declare (name : String) : EStateM NameError VariableNames Nat := fun names =>
  match names.index? name with
  | some index => .ok index names
  | none =>
    if names.size < UInt16.size then
      .ok names.size ⟨names.registry.push name⟩
    else
      .error .tooManyVariables names

end VariableNames

/-- The texts that instructions refer to by number. -/
structure Literals where
  registry : Registry := .empty

namespace Literals

def size (literals : Literals) : Nat :=
  literals.registry.size

/-- A number as a 32-bit word; those past the last word share it. -/
def word (n : Nat) : UInt32 :=
  (min n (UInt32.size - 1)).toUInt32

def text? (literals : Literals) (id : UInt32) : Option String :=
  literals.registry.get? id.toNat

/-- The number of a text, which is the next one if the text is new. -/
def register (literals : Literals) (text : String) : UInt32 × Literals :=
  match literals.registry.find? text with
  | some n => (word n, literals)
  | none => (word literals.size, ⟨literals.registry.push text⟩)

end Literals

end RefMachine
