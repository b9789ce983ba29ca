import RefMachine.Heap.Basic

/-!
# Releasing references

The last reference to an object releases it and, in turn, every reference that it held. The references still to be
released wait on a list. Each step takes one reference off the list, and moves there from the heap what becomes due, so
the references on the list and in the heap together bound the number of steps, also where objects hold each other.
-/

namespace RefMachine

/-- The references that an object holds, in the order of their release: the items of a tuple from the last, the head of
a list before its tail. -/
def Kind.references : (k : Kind) → k.Content → List Value
  | .string, _ => []
  | .tuple, items => items.reverse
  | .list, cell => [cell.head, .ref .list cell.tail]
  | .expression, _ => []

namespace Heap

/-- Takes a text that was released out of the table, if the slot is the one shared for its hash. -/
def forget (h : Handle) (text : String) (heap : Heap) : Heap :=
  let key := contentHash text
  if heap.interned.lookup key = some h then
    { heap with interned := heap.interned.filter fun entry => entry.1 != key }
  else
    heap

/-- What releasing an object means besides releasing what it held: a text is shared no more. -/
def forgetContent : (k : Kind) → Handle → k.Content → Heap → Heap
  | .string, h, text, heap => heap.forget h text
  | .tuple, _, _, heap => heap
  | .list, _, _, heap => heap
  | .expression, _, _, heap => heap

/-- Counts one reference to the object at `h` less and answers with the references that have to be released for it. -/
def releaseAt (k : Kind) (h : Handle) : HeapM (List Value) := do
  match ← onStore k (Store.release h) with
  | some x =>
    modify (forgetContent k h x)
    return k.references x
  | none => return []

/-- Does `releaseAt` for the object that a value refers to, if it refers to one. -/
def releaseOne : Value → HeapM (List Value)
  | .ref k h => releaseAt k h
  | _ => pure []

/-! ## The references in a heap -/

/-- The sum of a measure over all objects of the heap. -/
def weight (measure : (k : Kind) → k.Content → Nat) (heap : Heap) : Nat :=
  (heap.store .string).weight (measure .string) + (heap.store .tuple).weight (measure .tuple) +
    (heap.store .list).weight (measure .list) + (heap.store .expression).weight (measure .expression)

theorem weight_setStore (measure : (k : Kind) → k.Content → Nat) (heap : Heap) (k : Kind) (s : Store k.Content) :
    (heap.setStore k s).weight measure + (heap.store k).weight (measure k) =
      heap.weight measure + s.weight (measure k) := by
  cases k <;> simp only [weight, store, setStore] <;> omega

theorem weight_forgetContent (measure : (k : Kind) → k.Content → Nat) (k : Kind) (h : Handle) (x : k.Content)
    (heap : Heap) : (heap.forgetContent k h x).weight measure = heap.weight measure := by
  cases k with
  | string =>
    simp only [forgetContent, forget]
    split <;> rfl
  | tuple | list | expression => rfl

/-- The number of references that the objects of the heap hold. -/
def heldReferences (heap : Heap) : Nat :=
  heap.weight fun k x => (k.references x).length

theorem heldReferences_releaseAt {k : Kind} {h : Handle} {heap heap' : Heap} {held : List Value}
    (hstep : releaseAt k h heap = .ok held heap') :
    heap'.heldReferences + held.length = heap.heldReferences := by
  simp only [releaseAt, bind, EStateM.bind, onStore_eq] at hstep
  cases hrelease : Store.release h (heap.store k) with
  | error e s => simp [hrelease, locate] at hstep
  | ok freed s =>
    have hset := weight_setStore (fun k x => (k.references x).length) heap k s
    have hweight := Store.weight_release (fun x => (k.references x).length) hrelease
    rw [hrelease] at hstep
    cases freed with
    | none =>
      cases hstep
      simp only [Option.map_none, Option.getD_none] at hweight
      simp only [heldReferences, List.length_nil]
      omega
    | some x =>
      cases hstep
      rw [heldReferences, weight_forgetContent]
      simp only [Option.map_some, Option.getD_some] at hweight
      simp only [heldReferences]
      omega

/-- `releaseOne` takes as many references out of the heap as it hands back. -/
theorem heldReferences_releaseOne {v : Value} {heap heap' : Heap} {held : List Value}
    (hstep : releaseOne v heap = .ok held heap') :
    heap'.heldReferences + held.length = heap.heldReferences := by
  cases v with
  | ref k h => exact heldReferences_releaseAt hstep
  | error | boolean | integer | float | type | opcode =>
    cases hstep
    rfl

/-- Releases the references on the list, and all that become due meanwhile, until one fails. -/
def releaseAll (pending : List Value) (heap : Heap) : EStateM.Result HeapError Heap Unit :=
  match pending with
  | [] => .ok () heap
  | v :: rest =>
    match _hstep : releaseOne v heap with
    | .ok held heap' => releaseAll (held ++ rest) heap'
    | .error e heap' => .error e heap'
termination_by pending.length + heap.heldReferences
decreasing_by
  have := heldReferences_releaseOne _hstep
  simp only [List.length_append, List.length_cons]
  omega

/-- Gives up one reference to the object, if the value refers to one. -/
def release (v : Value) : HeapM Unit :=
  releaseAll [v]

end Heap

end RefMachine
