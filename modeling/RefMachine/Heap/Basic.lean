import RefMachine.Heap.Store
import RefMachine.Instruction

/-!
# The heap

Four stores, one for each kind of object, and a table of shared texts. Objects never change; only their counts do. A
new object has count zero, and whoever keeps a handle to it retains it. Tuples and list cells take over one reference to
each value that they hold. The first tuple and the first list are pinned: they are the empty tuple and the empty list.
-/

namespace RefMachine

/-! ## The content hash of a text

Texts are hashed over their UTF-16 code units: each unit multiplies the hash by a fixed factor and is mixed in by
exclusive or, in 64 bits.
-/

/-- The UTF-16 code units of a character: itself, or a surrogate pair. -/
def utf16Units (c : Char) : List UInt16 :=
  let n := c.toNat
  if n < 0x10000 then
    [n.toUInt16]
  else
    [(0xD800 + (n - 0x10000) / 0x400).toUInt16, (0xDC00 + (n - 0x10000) % 0x400).toUInt16]

namespace ContentHash

def seed : UInt64 := 0x542c2caa6d8770ef

def factor : UInt64 := 1251953

def step (hash : UInt64) (unit : UInt16) : UInt64 :=
  hash * factor ^^^ unit.toUInt64

def ofUnits (units : List UInt16) : UInt64 :=
  units.foldl step seed

end ContentHash

def contentHash (text : String) : UInt64 :=
  ContentHash.ofUnits (text.toList.flatMap utf16Units)

/-! ## Objects and stores -/

/-- One link of a list. -/
structure Cell where
  head : Value
  tail : Handle
  deriving DecidableEq

/-- What an object of each kind holds. -/
abbrev Kind.Content : Kind → Type
  | .string => String
  | .tuple => List Value
  | .list => Cell
  | .expression => Expression

structure Heap where
  strings : Store String := .empty
  tuples : Store (List Value) := .withSentinel []
  lists : Store Cell := .withSentinel ⟨.error, .sentinel⟩
  expressions : Store Expression := .empty
  /-- The shared texts: the slot of each by its content hash. -/
  interned : List (UInt64 × Handle) := []

structure HeapError where
  kind : Kind
  cause : SlotError
  deriving DecidableEq

def HeapError.message (e : HeapError) : String :=
  match e.cause with
  | .dangling h => "dangling " ++ e.kind.name ++ " handle " ++ toString h.index
  | .countUnderflow h => "reference count underflow on " ++ e.kind.name ++ " slot " ++ toString h.index
  | .countOverflow h => "reference count overflow on " ++ e.kind.name ++ " slot " ++ toString h.index
  | .full => e.kind.name ++ " store is full"

/-- Heap operations. One that fails keeps what it changed before it failed. -/
abbrev HeapM := EStateM HeapError Heap

namespace Heap

def empty : Heap := {}

def store (heap : Heap) : (k : Kind) → Store k.Content
  | .string => heap.strings
  | .tuple => heap.tuples
  | .list => heap.lists
  | .expression => heap.expressions

def setStore (heap : Heap) : (k : Kind) → Store k.Content → Heap
  | .string, s => { heap with strings := s }
  | .tuple, s => { heap with tuples := s }
  | .list, s => { heap with lists := s }
  | .expression, s => { heap with expressions := s }

/-- Names the store in which an operation failed, and puts the store back into its heap. -/
@[inline] def locate (k : Kind) (put : σ → Heap) :
    EStateM.Result SlotError σ β → EStateM.Result HeapError Heap β
  | .ok b s => .ok b (put s)
  | .error e s => .error ⟨k, e⟩ (put s)

/-- Runs an operation on one store. The heap is taken apart first, so that the store is not shared while it changes. -/
def onStore : (k : Kind) → EStateM SlotError (Store k.Content) β → HeapM β
  | .string, f, ⟨strings, tuples, lists, expressions, interned⟩ =>
    locate .string (⟨·, tuples, lists, expressions, interned⟩) (f strings)
  | .tuple, f, ⟨strings, tuples, lists, expressions, interned⟩ =>
    locate .tuple (⟨strings, ·, lists, expressions, interned⟩) (f tuples)
  | .list, f, ⟨strings, tuples, lists, expressions, interned⟩ =>
    locate .list (⟨strings, tuples, ·, expressions, interned⟩) (f lists)
  | .expression, f, ⟨strings, tuples, lists, expressions, interned⟩ =>
    locate .expression (⟨strings, tuples, lists, ·, interned⟩) (f expressions)

theorem onStore_eq (k : Kind) (f : EStateM SlotError (Store k.Content) β) (heap : Heap) :
    onStore k f heap = locate k (heap.setStore k) (f (heap.store k)) := by
  cases k <;> rfl

@[simp] theorem store_setStore (heap : Heap) (k : Kind) (s : Store k.Content) : (heap.setStore k s).store k = s := by
  cases k <;> rfl

theorem store_setStore_of_ne (heap : Heap) {k k' : Kind} (s : Store k.Content) (h : k' ≠ k) :
    (heap.setStore k s).store k' = heap.store k' := by
  cases k <;> cases k' <;> first | rfl | contradiction

@[simp] theorem interned_setStore (heap : Heap) (k : Kind) (s : Store k.Content) :
    (heap.setStore k s).interned = heap.interned := by
  cases k <;> rfl

/-! ## Access -/

def get? (heap : Heap) (k : Kind) (h : Handle) : Option k.Content :=
  (heap.store k).get? h

/-- The object at a handle; a handle to none is an error. -/
def fetch (heap : Heap) (k : Kind) (h : Handle) : Except HeapError k.Content :=
  match heap.get? k h with
  | some x => .ok x
  | none => .error ⟨k, .dangling h⟩

/-- The count of the object that a value refers to. -/
def refCount? (heap : Heap) : Value → Option Nat
  | .ref k h => (heap.store k).count? h
  | _ => none

def liveCount (heap : Heap) (k : Kind) : Nat :=
  (heap.store k).liveCount

def totalLive (heap : Heap) : Nat :=
  heap.liveCount .string + heap.liveCount .tuple + heap.liveCount .list + heap.liveCount .expression

/-! ## New objects -/

def insert (k : Kind) (x : k.Content) : HeapM Handle :=
  onStore k (Store.insert x)

/-- A slot of its own for the text, whatever texts there are already. -/
def newString (text : String) : HeapM Handle :=
  insert .string text

/-- The shared slot of the text's hash, if there is one; else a new one, shared from now on. The text in a shared slot
is not compared. -/
def internString (text : String) : HeapM Handle := do
  match (← get).interned.lookup (contentHash text) with
  | some h => return h
  | none =>
    let h ← newString text
    modify fun heap => { heap with interned := (contentHash text, h) :: heap.interned }
    return h

def newTuple (items : List Value) : HeapM Handle :=
  insert .tuple items

def newExpression (e : Expression) : HeapM Handle :=
  insert .expression e

/-- A cell in front of a list that exists. -/
def cons (head : Value) (tail : Handle) : HeapM Handle := do
  match (← get).lists.get? tail with
  | some _ => insert .list ⟨head, tail⟩
  | none => throw ⟨.list, .dangling tail⟩

/-- Counts one more reference to the object, if the value refers to one. -/
def retain : Value → HeapM Unit
  | .ref k h => onStore k (Store.retain h)
  | _ => pure ()

/-- The list of the items in order. It is built from its end, and each new cell retains the one before it. -/
def newList (items : List Value) : HeapM Handle :=
  items.foldrM (fun item tail => do
    retain (.ref .list tail)
    cons item tail) .sentinel

end Heap

end RefMachine
