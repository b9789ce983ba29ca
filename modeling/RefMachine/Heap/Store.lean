import RefMachine.Value

/-!
# Stores of counted slots

A store is a row of slots, each with a reference count. A slot whose count falls to zero is released: it is emptied and
queued, and the slot queued longest is the first to be filled again. The first slot of a store with a sentinel is
pinned: its count never changes. An operation that fails leaves the store as it was.
-/

namespace RefMachine

/-! ## First-in first-out queues -/

/-- The back is kept latest first, so that both ends are heads of lists. -/
structure Fifo (α : Type) where
  front : List α := []
  back : List α := []

namespace Fifo

variable {α : Type}

def toList (q : Fifo α) : List α :=
  q.front ++ q.back.reverse

def push (q : Fifo α) (a : α) : Fifo α :=
  { q with back := a :: q.back }

def pop? (q : Fifo α) : Option (α × Fifo α) :=
  match q.front with
  | a :: front => some (a, { q with front := front })
  | [] =>
    match q.back.reverse with
    | a :: front => some (a, { front := front })
    | [] => none

@[simp] theorem toList_empty : ({} : Fifo α).toList = [] := rfl

@[simp] theorem toList_push (q : Fifo α) (a : α) : (q.push a).toList = q.toList ++ [a] := by
  simp [toList, push]

theorem pop?_eq_none_iff {q : Fifo α} : q.pop? = none ↔ q.toList = [] := by
  obtain ⟨front, back⟩ := q
  cases front with
  | cons a front => simp [pop?, toList]
  | nil => cases h : back.reverse <;> simp [pop?, toList, h]

theorem toList_of_pop? {q rest : Fifo α} {a : α} (h : q.pop? = some (a, rest)) : q.toList = a :: rest.toList := by
  obtain ⟨front, back⟩ := q
  cases front with
  | cons b front =>
    simp only [pop?, Option.some.injEq, Prod.mk.injEq] at h
    obtain ⟨rfl, rfl⟩ := h
    simp [toList]
  | nil =>
    cases hback : back.reverse with
    | nil => simp [pop?, hback] at h
    | cons b front =>
      simp only [pop?, hback, Option.some.injEq, Prod.mk.injEq] at h
      obtain ⟨rfl, rfl⟩ := h
      simp [toList, hback]

end Fifo

/-! ## Slots -/

/-- The content of a slot, `none` once it is released, and the number of references to it. -/
structure Slot (α : Type) where
  content : Option α
  count : Nat

/-- The measure of the object in a slot, if there is one. -/
def Slot.weight {α : Type} (measure : α → Nat) (slot : Slot α) : Nat :=
  (slot.content.map measure).getD 0

structure Store (α : Type) where
  slots : Array (Slot α) := #[]
  /-- The released slots, in the order of their release. -/
  free : Fifo Handle := {}
  /-- Whether the first slot is pinned. -/
  hasSentinel : Bool := false

/-- Misuse of a handle, or a store at its limit. -/
inductive SlotError where
  | dangling (handle : Handle)
  | countUnderflow (handle : Handle)
  | countOverflow (handle : Handle)
  | full
  deriving DecidableEq

namespace Store

variable {α : Type}

/-- A count is a 32-bit word, and this is the largest. -/
def maxCount : Nat := UInt32.size - 1

/-- The count that a sentinel shows. -/
def pinnedCount : Nat := 0x7FFFFFFF

def empty : Store α := {}

/-- The store that holds one pinned object. -/
def withSentinel (x : α) : Store α where
  slots := #[⟨some x, pinnedCount⟩]
  hasSentinel := true

/-- Whether the handle names the pinned slot. -/
def pins (s : Store α) (h : Handle) : Bool :=
  s.hasSentinel && h.isSentinel

def get? (s : Store α) (h : Handle) : Option α :=
  s.slots[h.index]?.bind Slot.content

/-- The count of a slot that is not released. -/
def count? (s : Store α) (h : Handle) : Option Nat :=
  s.slots[h.index]?.bind fun slot => slot.content.map fun _ => slot.count

/-- The objects held, the sentinel left out. -/
def liveCount (s : Store α) : Nat :=
  s.slots.countP (fun slot => slot.content.isSome) - if s.hasSentinel then 1 else 0

/-- Fills the slot at the front of the queue, or a new one, with an object that nobody refers to yet. -/
def insert (x : α) : EStateM SlotError (Store α) Handle := fun s =>
  match s.free.pop? with
  | some (h, free) => .ok h { s with slots := s.slots.setIfInBounds h.index ⟨some x, 0⟩, free := free }
  | none =>
    if s.slots.size < UInt32.size then
      .ok ⟨s.slots.size.toUInt32⟩ { s with slots := s.slots.push ⟨some x, 0⟩ }
    else
      .error .full s

/-- Counts one more reference. -/
def retain (h : Handle) : EStateM SlotError (Store α) Unit := fun s =>
  if s.pins h then
    .ok () s
  else
    match s.slots[h.index]? with
    | some ⟨some x, count⟩ =>
      if count < maxCount then
        .ok () { s with slots := s.slots.setIfInBounds h.index ⟨some x, count + 1⟩ }
      else
        .error (.countOverflow h) s
    | _ => .error (.dangling h) s

/-- Counts one reference less. The last one releases the slot and hands over what it held. -/
def release (h : Handle) : EStateM SlotError (Store α) (Option α) := fun s =>
  if s.pins h then
    .ok none s
  else
    match s.slots[h.index]? with
    | some ⟨some _, 0⟩ => .error (.countUnderflow h) s
    | some ⟨some x, 1⟩ =>
      .ok (some x) { s with slots := s.slots.setIfInBounds h.index ⟨none, 0⟩, free := s.free.push h }
    | some ⟨some x, count + 2⟩ =>
      .ok none { s with slots := s.slots.setIfInBounds h.index ⟨some x, count + 1⟩ }
    | _ => .error (.dangling h) s

/-! ## The weight of a store -/

/-- The sum of a measure over all objects held. -/
def weight (measure : α → Nat) (s : Store α) : Nat :=
  s.slots.toList.foldr (fun slot sum => slot.weight measure + sum) 0

theorem foldr_set (f : Slot α → Nat) {slots : List (Slot α)} {i : Nat} {old : Slot α} (hold : slots[i]? = some old)
    (new : Slot α) :
    (slots.set i new).foldr (fun slot sum => f slot + sum) 0 + f old =
      slots.foldr (fun slot sum => f slot + sum) 0 + f new := by
  induction slots generalizing i with
  | nil => simp at hold
  | cons slot rest ih =>
    cases i with
    | zero =>
      simp only [List.getElem?_cons_zero, Option.some.injEq] at hold
      simp only [List.set_cons_zero, List.foldr_cons, hold]
      omega
    | succ i =>
      have hrest := ih (i := i) (by simpa using hold)
      simp only [List.set_cons_succ, List.foldr_cons]
      omega

theorem weight_set (measure : α → Nat) (s : Store α) (free : Fifo Handle) {i : Nat} {old : Slot α}
    (hold : s.slots[i]? = some old) (new : Slot α) :
    weight measure { s with slots := s.slots.setIfInBounds i new, free := free } + old.weight measure =
      s.weight measure + new.weight measure := by
  unfold weight
  rw [Array.toList_setIfInBounds]
  apply foldr_set
  rw [Array.getElem?_toList, hold]

theorem weight_release (measure : α → Nat) {s s' : Store α} {h : Handle} {freed : Option α}
    (hrelease : release h s = .ok freed s') :
    s'.weight measure + (freed.map measure).getD 0 = s.weight measure := by
  unfold release at hrelease
  split at hrelease
  · cases hrelease
    rfl
  · split at hrelease
    · cases hrelease
    · rename_i x hslot
      cases hrelease
      exact weight_set measure s (s.free.push h) hslot ⟨none, 0⟩
    · rename_i x count hslot
      cases hrelease
      have hset := weight_set measure s s.free hslot ⟨some x, count + 1⟩
      exact Nat.add_right_cancel hset
    · cases hrelease

end Store

end RefMachine
