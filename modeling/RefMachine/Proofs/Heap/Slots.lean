import RefMachine.Heap.Release
import RefMachine.Proofs.Outcome
import Mathlib.Algebra.GroupWithZero.Nat
import Mathlib.Data.List.Nodup

/-!
# Slots of a well-formed heap

What the operations of a store can do, said once. A store is well formed when the queue holds each released slot once,
a released slot counts nothing, and the pinned slot is as it was made; a heap is well formed when its four stores are and
every entry of the table of shared texts names a live text of its hash, with one entry for each hash.

An operation fails and changes nothing, or changes exactly one slot (`Update`). `insert_cases`, `internString_cases`,
`retain_cases` and `releaseOne_cases` list the outcomes on a well-formed heap and say that the heap stays well formed.
-/

namespace RefMachine

theorem Handle.isSentinel_iff {h : Handle} : h.isSentinel = true ↔ h = .sentinel := by
  cases h
  simp [isSentinel, sentinel]

namespace Store

variable {α : Type}

def slot? (s : Store α) (h : Handle) : Option (Slot α) :=
  s.slots[h.index]?

/-- The references counted at a slot; none at a slot that there is not. -/
def count (s : Store α) (h : Handle) : Nat :=
  ((s.slot? h).map Slot.count).getD 0

theorem get?_eq (s : Store α) (h : Handle) : s.get? h = (s.slot? h).bind Slot.content := rfl

theorem get?_of_slot? {s : Store α} {h : Handle} {slot : Slot α} (hslot : s.slot? h = some slot) :
    s.get? h = slot.content := by
  rw [get?_eq, hslot, Option.bind_some]

theorem count_of_slot? {s : Store α} {h : Handle} {slot : Slot α} (hslot : s.slot? h = some slot) :
    s.count h = slot.count := by
  rw [count, hslot, Option.map_some, Option.getD_some]

theorem slot?_of_get? {s : Store α} {h : Handle} {x : α} (hget : s.get? h = some x) :
    ∃ count, s.slot? h = some ⟨some x, count⟩ := by
  rw [get?_eq, Option.bind_eq_some_iff] at hget
  obtain ⟨⟨content, count⟩, hslot, rfl⟩ := hget
  exact ⟨count, hslot⟩

theorem weight_eq_sum (measure : α → Nat) (s : Store α) :
    s.weight measure = (s.slots.toList.map (Slot.weight measure)).sum := by
  rw [weight, List.sum, List.foldr_map]

/-! ## Changing one slot -/

/-- The slot at `h` is changed or added, and no other. -/
structure Update (s s' : Store α) (h : Handle) (new : Slot α) : Prop where
  slot?_eq : ∀ h', s'.slot? h' = if h' = h then some new else s.slot? h'
  weight_eq : ∀ measure, s'.weight measure + ((s.get? h).map measure).getD 0 =
    s.weight measure + (new.content.map measure).getD 0

theorem update_set {s : Store α} {h : Handle} {old : Slot α} (hold : s.slot? h = some old) (new : Slot α)
    (free : Fifo Handle) :
    s.Update { s with slots := s.slots.setIfInBounds h.index new, free := free } h new where
  slot?_eq h' := by
    obtain ⟨hlt, -⟩ := Array.getElem?_eq_some_iff.mp hold
    simp only [slot?, Array.getElem?_setIfInBounds, hlt, if_true, Handle.index_inj]
    exact if_congr eq_comm rfl rfl
  weight_eq measure := by
    rw [get?_of_slot? hold]
    exact weight_set measure s free hold new

theorem update_push {s : Store α} (hsize : s.slots.size < UInt32.size) (new : Slot α) :
    s.Update { s with slots := s.slots.push new } ⟨s.slots.size.toUInt32⟩ new where
  slot?_eq h' := by
    simp only [slot?, Array.getElem?_push, ← Handle.index_inj, Handle.index_toUInt32 hsize]
  weight_eq measure := by
    have hnone : s.get? ⟨s.slots.size.toUInt32⟩ = none := by
      rw [get?_eq, slot?, Handle.index_toUInt32 hsize, Array.getElem?_size, Option.bind_none]
    simp [weight_eq_sum, hnone, Slot.weight]

/-! ## Well-formed stores -/

/-- The queue holds the released slots, which count nothing, and the pinned slot holds the sentinel. -/
structure WellFormed (s : Store α) (sentinel : Option α) : Prop where
  size_le : s.slots.size ≤ UInt32.size
  free_nodup : s.free.toList.Nodup
  mem_free : ∀ h, h ∈ s.free.toList ↔ s.slot? h = some ⟨none, 0⟩
  released : ∀ h count, s.slot? h = some ⟨none, count⟩ → count = 0
  hasSentinel_eq : s.hasSentinel = sentinel.isSome
  pinned : ∀ x ∈ sentinel, s.slot? .sentinel = some ⟨some x, pinnedCount⟩

namespace WellFormed

variable {s s' : Store α} {sentinel : Option α} {h : Handle}

theorem exists_handle (hs : s.WellFormed sentinel) {i : Nat} (hi : i < s.slots.size) : ∃ h : Handle, h.index = i :=
  ⟨⟨i.toUInt32⟩, Handle.index_toUInt32 (Nat.lt_of_lt_of_le hi hs.size_le)⟩

theorem pins_eq (hs : s.WellFormed sentinel) (h : Handle) : s.pins h = (sentinel.isSome && h.isSentinel) := by
  rw [pins, hs.hasSentinel_eq]

theorem count_of_released (hs : s.WellFormed sentinel) (hget : s.get? h = none) : s.count h = 0 := by
  rw [count]
  rcases hslot : s.slot? h with _ | ⟨content, count⟩
  · rfl
  · rw [get?_of_slot? hslot] at hget
    change content = none at hget
    subst hget
    exact hs.released h count hslot

theorem pins_eq_false (hs : s.WellFormed sentinel) (hget : s.get? h = none) : s.pins h = false := by
  rw [hs.pins_eq]
  rcases sentinel with _ | x
  · rfl
  · by_contra hpins
    have hsentinel : h = .sentinel := Handle.isSentinel_iff.mp (by simpa using hpins)
    rw [hsentinel, get?_of_slot? (hs.pinned x rfl)] at hget
    exact nomatch hget

theorem ne_sentinel (hs : s.WellFormed sentinel) (hpins : s.pins h = false) {x : α} (hx : x ∈ sentinel) :
    .sentinel ≠ h := by
  rintro rfl
  simp [hs.pins_eq, Handle.isSentinel, Handle.sentinel, Option.mem_def.mp hx] at hpins

theorem update_live (hs : s.WellFormed sentinel) {old new : α} {count count' : Nat} (hpins : s.pins h = false)
    (hslot : s.slot? h = some ⟨some old, count⟩) :
    WellFormed { s with slots := s.slots.setIfInBounds h.index ⟨some new, count'⟩ } sentinel := by
  have hupdate := update_set hslot ⟨some new, count'⟩ s.free
  refine ⟨?_, hs.free_nodup, fun h' => ?_, fun h' c hc => ?_, hs.hasSentinel_eq, fun x hx => ?_⟩
  · rw [Array.size_setIfInBounds]
    exact hs.size_le
  · rw [hupdate.slot?_eq]
    split_ifs with heq
    · rw [hs.mem_free, heq, hslot]
      simp
    · exact hs.mem_free h'
  · rw [hupdate.slot?_eq] at hc
    split_ifs at hc with heq
    · simp at hc
    · exact hs.released h' c hc
  · rw [hupdate.slot?_eq, if_neg (hs.ne_sentinel hpins hx)]
    exact hs.pinned x hx

theorem free_slot (hs : s.WellFormed sentinel) {old : α} {count : Nat} (hpins : s.pins h = false)
    (hslot : s.slot? h = some ⟨some old, count⟩) :
    WellFormed { s with slots := s.slots.setIfInBounds h.index ⟨none, 0⟩, free := s.free.push h } sentinel := by
  have hupdate := update_set hslot ⟨none, 0⟩ (s.free.push h)
  have hfresh : h ∉ s.free.toList := by
    rw [hs.mem_free, hslot]
    simp
  refine ⟨?_, ?_, fun h' => ?_, fun h' c hc => ?_, hs.hasSentinel_eq, fun x hx => ?_⟩
  · rw [Array.size_setIfInBounds]
    exact hs.size_le
  · rw [Fifo.toList_push]
    refine List.nodup_append.mpr ⟨hs.free_nodup, List.nodup_singleton h, fun a ha b hb heq => hfresh ?_⟩
    rw [← List.mem_singleton.mp hb, ← heq]
    exact ha
  · rw [hupdate.slot?_eq, Fifo.toList_push, List.mem_append, List.mem_singleton]
    split_ifs with heq
    · simp [heq]
    · rw [hs.mem_free]
      simp [heq]
  · rw [hupdate.slot?_eq] at hc
    split_ifs at hc with heq
    · simp only [Option.some.injEq, Slot.mk.injEq, true_and] at hc
      exact hc.symm
    · exact hs.released h' c hc
  · rw [hupdate.slot?_eq, if_neg (hs.ne_sentinel hpins hx)]
    exact hs.pinned x hx

end WellFormed

/-! ## The outcomes of the operations -/

variable {sentinel : Option α}

theorem insert_cases {s : Store α} (hs : s.WellFormed sentinel) (x : α) :
    (∃ h s', insert x s = .ok h s' ∧ s.get? h = none ∧ s.Update s' h ⟨some x, 0⟩ ∧ s'.WellFormed sentinel) ∨
      insert x s = .error .full s := by
  rcases hpop : s.free.pop? with _ | ⟨h, free⟩
  · by_cases hsize : s.slots.size < UInt32.size
    · left
      have hempty := Fifo.pop?_eq_none_iff.mp hpop
      have hupdate := update_push hsize ⟨some x, 0⟩
      have hslot : s.slot? ⟨s.slots.size.toUInt32⟩ = none := by
        rw [slot?, Handle.index_toUInt32 hsize, Array.getElem?_size]
      refine ⟨_, _, by simp only [insert, hpop, if_pos hsize], by rw [get?_eq, hslot]; rfl, hupdate, ?_⟩
      refine ⟨?_, hs.free_nodup, fun h' => ?_, fun h' c hc => ?_, hs.hasSentinel_eq, fun y hy => ?_⟩
      · rw [Array.size_push]
        omega
      · rw [hupdate.slot?_eq]
        split_ifs with heq
        · rw [hempty]
          simp
        · exact hs.mem_free h'
      · rw [hupdate.slot?_eq] at hc
        split_ifs at hc with heq
        · simp at hc
        · exact hs.released h' c hc
      · rw [hupdate.slot?_eq, if_neg]
        · exact hs.pinned y hy
        · intro heq
          rw [← heq, hs.pinned y hy] at hslot
          exact nomatch hslot
    · right
      simp only [insert, hpop, if_neg hsize]
  · left
    have hlist := Fifo.toList_of_pop? hpop
    have hslot : s.slot? h = some ⟨none, 0⟩ := (hs.mem_free h).mp (by simp [hlist])
    have hnodup := hs.free_nodup
    rw [hlist, List.nodup_cons] at hnodup
    have hupdate := update_set hslot ⟨some x, 0⟩ free
    refine ⟨h, _, by simp [insert, hpop], get?_of_slot? hslot, hupdate, ?_⟩
    refine ⟨?_, hnodup.2, fun h' => ?_, fun h' c hc => ?_, hs.hasSentinel_eq, fun y hy => ?_⟩
    · rw [Array.size_setIfInBounds]
      exact hs.size_le
    · rw [hupdate.slot?_eq]
      split_ifs with heq
      · simp [heq, hnodup.1]
      · rw [← hs.mem_free, hlist, List.mem_cons]
        simp [heq]
    · rw [hupdate.slot?_eq] at hc
      split_ifs at hc with heq
      · simp at hc
      · exact hs.released h' c hc
    · rw [hupdate.slot?_eq, if_neg]
      · exact hs.pinned y hy
      · rintro rfl
        rw [hs.pinned y hy] at hslot
        exact nomatch hslot

theorem retain_cases {s : Store α} (hs : s.WellFormed sentinel) (h : Handle) :
    (s.pins h = true ∧ retain h s = .ok () s) ∨
      (∃ x count s', s.pins h = false ∧ s.slot? h = some ⟨some x, count⟩ ∧ retain h s = .ok () s' ∧
        s.Update s' h ⟨some x, count + 1⟩ ∧ s'.WellFormed sentinel) ∨
      (s.pins h = false ∧ (s.get? h).isSome ∧ retain h s = .error (.countOverflow h) s) ∨
      (s.get? h = none ∧ retain h s = .error (.dangling h) s) := by
  cases hpins : s.pins h with
  | true => exact .inl ⟨rfl, by simp [retain, hpins]⟩
  | false =>
    right
    rcases hslot : s.slot? h with _ | ⟨_ | x, count⟩
    · have hslot' : s.slots[h.index]? = none := hslot
      exact .inr (.inr ⟨by rw [get?_eq, hslot]; rfl, by simp [retain, hpins, hslot']⟩)
    · have hslot' : s.slots[h.index]? = some ⟨none, count⟩ := hslot
      exact .inr (.inr ⟨get?_of_slot? hslot, by simp [retain, hpins, hslot']⟩)
    · have hslot' : s.slots[h.index]? = some ⟨some x, count⟩ := hslot
      by_cases hcount : count < maxCount
      · exact .inl ⟨x, count, _, rfl, rfl, by simp [retain, hpins, hslot', hcount], update_set hslot _ s.free,
          hs.update_live hpins hslot⟩
      · exact .inr (.inl ⟨rfl, by simp [get?_of_slot? hslot], by simp [retain, hpins, hslot', hcount]⟩)

theorem release_cases {s : Store α} (hs : s.WellFormed sentinel) (h : Handle) :
    (s.pins h = true ∧ release h s = .ok none s) ∨
      (∃ x s', s.pins h = false ∧ s.slot? h = some ⟨some x, 1⟩ ∧ release h s = .ok (some x) s' ∧
        s.Update s' h ⟨none, 0⟩ ∧ s'.WellFormed sentinel) ∨
      (∃ x count s', s.pins h = false ∧ s.slot? h = some ⟨some x, count + 2⟩ ∧ release h s = .ok none s' ∧
        s.Update s' h ⟨some x, count + 1⟩ ∧ s'.WellFormed sentinel) ∨
      (∃ x, s.pins h = false ∧ s.slot? h = some ⟨some x, 0⟩ ∧ release h s = .error (.countUnderflow h) s) ∨
      (s.get? h = none ∧ release h s = .error (.dangling h) s) := by
  cases hpins : s.pins h with
  | true => exact .inl ⟨rfl, by simp [release, hpins]⟩
  | false =>
    right
    rcases hslot : s.slot? h with _ | ⟨_ | x, _ | _ | count⟩
    · have hslot' : s.slots[h.index]? = none := hslot
      exact .inr (.inr (.inr ⟨by rw [get?_eq, hslot]; rfl, by simp [release, hpins, hslot']⟩))
    · have hslot' : s.slots[h.index]? = some ⟨none, 0⟩ := hslot
      exact .inr (.inr (.inr ⟨get?_of_slot? hslot, by simp [release, hpins, hslot']⟩))
    · exact absurd (hs.released h _ hslot) (by simp)
    · exact absurd (hs.released h _ hslot) (by simp)
    · have hslot' : s.slots[h.index]? = some ⟨some x, 0⟩ := hslot
      exact .inr (.inr (.inl ⟨x, rfl, rfl, by simp [release, hpins, hslot']⟩))
    · have hslot' : s.slots[h.index]? = some ⟨some x, 1⟩ := hslot
      exact .inl ⟨x, _, rfl, rfl, by simp [release, hpins, hslot'], update_set hslot _ _, hs.free_slot hpins hslot⟩
    · have hslot' : s.slots[h.index]? = some ⟨some x, count + 2⟩ := hslot
      exact .inr (.inl ⟨x, count, _, rfl, rfl, by simp [release, hpins, hslot'], update_set hslot _ s.free,
        hs.update_live hpins hslot⟩)

end Store

/-- The object that is pinned in the store of a kind. -/
def Kind.sentinel? : (k : Kind) → Option k.Content
  | .string => none
  | .tuple => some []
  | .list => some ⟨.error, .sentinel⟩
  | .expression => none

def Kind.pins (k : Kind) (h : Handle) : Bool :=
  k.sentinel?.isSome && h.isSentinel

/-- The value is a handle to a slot whose references are counted: any but those of the empty tuple and the empty list. -/
def Value.Counted : Value → Prop
  | .ref k h => k.pins h = false
  | _ => False

theorem Value.not_counted_emptyList : ¬ emptyList.Counted := by
  simp [emptyList, Counted, Kind.pins, Kind.sentinel?, Handle.isSentinel, Handle.sentinel]

namespace Heap

variable {heap heap' : Heap} {k : Kind} {h : Handle}

def slot? (heap : Heap) (k : Kind) (h : Handle) : Option (Slot k.Content) :=
  (heap.store k).slot? h

theorem get?_of_slot? {slot : Slot k.Content} (hslot : heap.slot? k h = some slot) : heap.get? k h = slot.content :=
  Store.get?_of_slot? hslot

@[simp] theorem setStore_store (heap : Heap) (k : Kind) : heap.setStore k (heap.store k) = heap := by
  cases k <;> rfl

/-- The slot at `h` of one kind is changed or added, and no other. -/
structure Update (heap heap' : Heap) (k : Kind) (h : Handle) (new : Slot k.Content) : Prop where
  slot?_self : heap'.slot? k h = some new
  slot?_of_ne : ∀ k' h', Value.ref k' h' ≠ .ref k h → heap'.slot? k' h' = heap.slot? k' h'
  weight_eq : ∀ measure, heap'.weight measure + ((heap.get? k h).map (measure k)).getD 0 =
    heap.weight measure + (new.content.map (measure k)).getD 0

namespace Update

variable {new : Slot k.Content}

theorem get?_self (hu : heap.Update heap' k h new) : heap'.get? k h = new.content :=
  get?_of_slot? hu.slot?_self

theorem get?_of_ne (hu : heap.Update heap' k h new) {k' : Kind} {h' : Handle} (hne : Value.ref k' h' ≠ .ref k h) :
    heap'.get? k' h' = heap.get? k' h' :=
  congrArg (·.bind Slot.content) (hu.slot?_of_ne k' h' hne)

end Update

theorem update_setStore {s : Store k.Content} {new : Slot k.Content} (hu : (heap.store k).Update s h new) :
    heap.Update (heap.setStore k s) k h new where
  slot?_self := by
    rw [slot?, store_setStore, hu.slot?_eq, if_pos rfl]
  slot?_of_ne k' h' hne := by
    by_cases hk : k' = k
    · subst hk
      rw [slot?, store_setStore, hu.slot?_eq, if_neg (fun hh => hne (by rw [hh])), slot?]
    · rw [slot?, store_setStore_of_ne _ _ hk, slot?]
  weight_eq measure := by
    have hset := weight_setStore measure heap k s
    have hstore := hu.weight_eq (measure k)
    change _ + (((heap.store k).get? h).map (measure k)).getD 0 = _
    omega

theorem slot?_forgetContent (k : Kind) (h : Handle) (x : k.Content) (heap : Heap) (k' : Kind) (h' : Handle) :
    (heap.forgetContent k h x).slot? k' h' = heap.slot? k' h' := by
  cases k with
  | string =>
    simp only [forgetContent, forget]
    split <;> cases k' <;> rfl
  | tuple | list | expression => rfl

theorem lookup_of_mem {table : List (UInt64 × Handle)} {key : UInt64} (hnodup : (table.map Prod.fst).Nodup)
    (hmem : (key, h) ∈ table) : table.lookup key = some h := by
  induction table with
  | nil => simp at hmem
  | cons entry rest ih =>
    rw [List.map_cons, List.nodup_cons] at hnodup
    rcases List.mem_cons.mp hmem with rfl | hmem
    · simp
    · have hne : key ≠ entry.1 := fun heq => hnodup.1 (heq ▸ List.mem_map_of_mem (f := Prod.fst) hmem)
      rw [List.lookup_cons, beq_false_of_ne hne]
      exact ih hnodup.2 hmem

theorem mem_of_lookup {table : List (UInt64 × Handle)} {key : UInt64} (hlookup : table.lookup key = some h) :
    (key, h) ∈ table := by
  obtain ⟨before, after, rfl, -⟩ := List.lookup_eq_some_iff.mp hlookup
  simp

theorem interned_forgetContent_subset (k : Kind) (h : Handle) (x : k.Content) (heap : Heap) :
    (heap.forgetContent k h x).interned ⊆ heap.interned := by
  cases k with
  | string =>
    simp only [Heap.forgetContent, forget]
    split
    · exact List.filter_subset_self _
    · exact List.Subset.refl _
  | tuple | list | expression => exact List.Subset.refl _

theorem mem_interned_forgetContent (hnodup : (heap.interned.map Prod.fst).Nodup) {entry : UInt64 × Handle}
    (hentry : entry ∈ heap.interned) (hne : Value.ref .string entry.2 ≠ .ref k h) (x : k.Content) :
    entry ∈ (heap.forgetContent k h x).interned := by
  cases k with
  | string =>
    simp only [Heap.forgetContent, forget]
    split
    · rename_i hlookup
      refine List.mem_filter.mpr ⟨hentry, bne_iff_ne.mpr fun hkey => hne ?_⟩
      have hself := lookup_of_mem hnodup hentry
      rw [hkey, hlookup] at hself
      rw [Option.some.inj hself]
    · exact hentry
  | tuple | list | expression => exact hentry

theorem interned_forgetContent_setStore (x : k.Content) (s : Store k.Content) :
    ((heap.setStore k s).forgetContent k h x).interned = (heap.forgetContent k h x).interned := by
  cases k with
  | string =>
    simp only [Heap.forgetContent, forget, interned_setStore]
    split <;> rfl
  | tuple | list | expression => rfl

theorem Update.forgetContent {new : Slot k.Content} (hu : heap.Update heap' k h new) (x : k.Content) :
    heap.Update (heap'.forgetContent k h x) k h new where
  slot?_self := by
    rw [slot?_forgetContent, hu.slot?_self]
  slot?_of_ne k' h' hne := by
    rw [slot?_forgetContent, hu.slot?_of_ne k' h' hne]
  weight_eq measure := by
    rw [weight_forgetContent, hu.weight_eq]

/-! ## Well-formed heaps -/

/-- The stores are well formed, and each hash has at most one shared text, which is live and has that hash. -/
structure WellFormed (heap : Heap) : Prop where
  store : ∀ k, (heap.store k).WellFormed k.sentinel?
  interned : ∀ entry ∈ heap.interned, ∃ text, heap.get? .string entry.2 = some text ∧ contentHash text = entry.1
  interned_nodup : (heap.interned.map Prod.fst).Nodup

/-- Every object of the one heap is in the same slot of the other. -/
def Extends (heap heap' : Heap) : Prop :=
  ∀ k h x, heap.get? k h = some x → heap'.get? k h = some x

theorem Update.extension {new : Slot k.Content} (hu : heap.Update heap' k h new)
    (hnew : ∀ x, heap.get? k h = some x → new.content = some x) : heap.Extends heap' := by
  intro k' h' x hget
  by_cases heq : Value.ref k' h' = .ref k h
  · cases heq
    rw [hu.get?_self, hnew x hget]
  · rw [hu.get?_of_ne heq, hget]

namespace WellFormed

theorem pins_eq (hw : heap.WellFormed) (k : Kind) (h : Handle) : (heap.store k).pins h = k.pins h :=
  (hw.store k).pins_eq h

theorem get?_of_pins (hw : heap.WellFormed) (hpins : k.pins h = true) : heap.get? k h = k.sentinel? := by
  obtain ⟨hsome, hsentinel⟩ := Bool.and_eq_true_iff.mp hpins
  obtain ⟨x, hx⟩ := Option.isSome_iff_exists.mp hsome
  rw [Handle.isSentinel_iff.mp hsentinel, hx]
  exact Store.get?_of_slot? ((hw.store k).pinned x hx)

theorem setStore (hw : heap.WellFormed) {s : Store k.Content} (hs : s.WellFormed k.sentinel?)
    (hext : heap.Extends (heap.setStore k s)) : (heap.setStore k s).WellFormed where
  store k' := by
    by_cases hk : k' = k
    · subst hk
      rwa [store_setStore]
    · rw [store_setStore_of_ne _ _ hk]
      exact hw.store k'
  interned entry hentry := by
    rw [interned_setStore] at hentry
    obtain ⟨text, hget, hhash⟩ := hw.interned entry hentry
    exact ⟨text, hext _ _ _ hget, hhash⟩
  interned_nodup := by
    rw [interned_setStore]
    exact hw.interned_nodup

theorem share (hw : heap.WellFormed) {text : String} (hget : heap.get? .string h = some text)
    (hfresh : heap.interned.lookup (contentHash text) = none) :
    { heap with interned := (contentHash text, h) :: heap.interned }.WellFormed where
  store k := by
    have hstore := hw.store k
    cases k <;> exact hstore
  interned entry hentry := by
    rcases List.mem_cons.mp hentry with rfl | hentry
    · exact ⟨text, hget, rfl⟩
    · exact hw.interned entry hentry
  interned_nodup := by
    refine List.nodup_cons.mpr ⟨fun hmem => ?_, hw.interned_nodup⟩
    obtain ⟨⟨key, h'⟩, hentry, rfl⟩ := List.mem_map.mp hmem
    rw [lookup_of_mem hw.interned_nodup hentry] at hfresh
    simp at hfresh

theorem freed (hw : heap.WellFormed) {s : Store k.Content} {x : k.Content} (hs : s.WellFormed k.sentinel?)
    (hget : heap.get? k h = some x) (hu : (heap.store k).Update s h ⟨none, 0⟩) :
    ((heap.setStore k s).forgetContent k h x).WellFormed := by
  have hupdate := update_setStore hu
  have hstore : ∀ k', ((heap.setStore k s).store k').WellFormed k'.sentinel? := by
    intro k'
    by_cases hk : k' = k
    · subst hk
      rwa [store_setStore]
    · rw [store_setStore_of_ne _ _ hk]
      exact hw.store k'
  by_cases hk : k = .string
  · subst hk
    -- An entry that names the slot has the hash of its text for a key, so it is the one that is taken out.
    have hkey : ∀ entry ∈ heap.interned, entry.2 = h → entry.1 = contentHash x := by
      rintro entry hentry rfl
      obtain ⟨text, htext, hhash⟩ := hw.interned entry hentry
      rw [hget] at htext
      cases htext
      exact hhash.symm
    have hkeep : ∀ entry ∈ heap.interned, entry.2 ≠ h →
        ∃ text, (heap.setStore .string s).get? .string entry.2 = some text ∧ contentHash text = entry.1 := by
      intro entry hentry hne
      obtain ⟨text, htext, hhash⟩ := hw.interned entry hentry
      refine ⟨text, ?_, hhash⟩
      rw [hupdate.get?_of_ne (by simpa using hne), htext]
    rw [forgetContent, forget]
    simp only [interned_setStore]
    split_ifs with hlookup
    · refine ⟨hstore, fun entry hentry => ?_, ?_⟩
      · rw [List.mem_filter] at hentry
        refine hkeep entry hentry.1 fun heq => ?_
        simp [hkey entry hentry.1 heq] at hentry
      · exact hw.interned_nodup.sublist (List.filter_sublist.map _)
    · refine ⟨hstore, fun entry hentry => hkeep entry hentry fun heq => hlookup ?_, hw.interned_nodup⟩
      refine lookup_of_mem hw.interned_nodup ?_
      rw [← hkey entry hentry heq, ← heq]
      exact hentry
  · have hforget : (heap.setStore k s).forgetContent k h x = heap.setStore k s := by
      cases k <;> first | rfl | contradiction
    rw [hforget]
    refine ⟨hstore, fun entry hentry => ?_, ?_⟩
    · rw [interned_setStore] at hentry
      obtain ⟨text, htext, hhash⟩ := hw.interned entry hentry
      refine ⟨text, ?_, hhash⟩
      rw [hupdate.get?_of_ne (fun heq => hk (by cases heq; rfl)), htext]
    · rw [interned_setStore]
      exact hw.interned_nodup

end WellFormed

theorem wellFormed_empty : empty.WellFormed where
  store k := by
    cases k
    case string | expression =>
      refine ⟨Nat.zero_le _, List.nodup_nil, fun h => ?_, fun h count hslot => ?_, rfl, fun x hx => ?_⟩
      · simp [Store.slot?, store, empty, Store.empty]
      · simp [Store.slot?, store, empty, Store.empty] at hslot
      · cases hx
    case tuple | list =>
      refine ⟨by decide, List.nodup_nil, fun h => ?_, fun h count hslot => ?_, rfl, fun x hx => ?_⟩
      · simp [Store.slot?, store, empty, Store.withSentinel, List.getElem?_singleton]
      · simp [Store.slot?, store, empty, Store.withSentinel, List.getElem?_singleton] at hslot
      · cases hx
        rfl
  interned entry hentry := absurd hentry List.not_mem_nil
  interned_nodup := List.nodup_nil

theorem get?_empty (hpins : k.pins h = false) : empty.get? k h = none := by
  have hslot : empty.slot? k h = none := by
    cases k with
    | string | expression => rfl
    | tuple | list =>
      have hindex : h.index ≠ 0 := by
        intro hzero
        have hsentinel : h = .sentinel := Handle.index_inj.mp hzero
        rw [hsentinel] at hpins
        exact nomatch hpins
      exact Array.getElem?_eq_none (Nat.one_le_iff_ne_zero.mpr hindex)
  exact congrArg (·.bind Slot.content) hslot

/-! ## The outcomes of the operations -/

theorem insert_cases (hw : heap.WellFormed) (x : k.Content) :
    (∃ h heap', insert k x heap = .ok h heap' ∧ heap.get? k h = none ∧ heap.Update heap' k h ⟨some x, 0⟩ ∧
        heap'.WellFormed ∧ heap'.interned = heap.interned) ∨
      insert k x heap = .error ⟨k, .full⟩ heap := by
  rw [insert, onStore_eq]
  rcases Store.insert_cases (hw.store k) x with ⟨h, s, hrun, hget, hu, hs⟩ | hrun
  · left
    have hupdate := update_setStore hu
    have hext : heap.Extends (heap.setStore k s) := hupdate.extension fun y hy => by
      change (heap.store k).get? h = some y at hy
      rw [hget] at hy
      exact nomatch hy
    exact ⟨h, _, by rw [hrun, locate], hget, hupdate, hw.setStore hs hext, interned_setStore _ _ _⟩
  · right
    rw [hrun, locate, setStore_store]

/-- `internString` finds the slot shared for the hash, shares a new one, or finds the store full. -/
theorem internString_cases (hw : heap.WellFormed) (text : String) :
    (∃ h, heap.interned.lookup (contentHash text) = some h ∧ internString text heap = .ok h heap) ∨
      (∃ h heap', internString text heap = .ok h heap' ∧ heap.get? .string h = none ∧
        heap.Update heap' .string h ⟨some text, 0⟩ ∧ heap'.WellFormed ∧
        heap'.interned = (contentHash text, h) :: heap.interned) ∨
      internString text heap = .error ⟨.string, .full⟩ heap := by
  unfold internString
  rw [get_bind_apply]
  cases hlookup : heap.interned.lookup (contentHash text) with
  | some h => exact .inl ⟨h, rfl, rfl⟩
  | none =>
    right
    rcases insert_cases hw (k := .string) text with ⟨h, heap', hrun, hnone, hu, hw', htable⟩ | hrun
    · left
      have hlookup' : heap'.interned.lookup (contentHash text) = none := by
        rw [htable, hlookup]
      refine ⟨h, _, bind_apply_of_ok hrun _, hnone, ?_, hw'.share hu.get?_self hlookup', ?_⟩
      · refine ⟨hu.slot?_self, fun k h' hne => ?_, hu.weight_eq⟩
        rw [← hu.slot?_of_ne k h' hne]
        cases k <;> rfl
      · exact congrArg _ htable
    · right
      exact bind_apply_of_error hrun _

theorem retain_cases (hw : heap.WellFormed) (v : Value) :
    (¬ v.Counted ∧ retain v heap = .ok () heap) ∨
      (∃ k h x count heap', v = .ref k h ∧ v.Counted ∧ heap.slot? k h = some ⟨some x, count⟩ ∧
        retain v heap = .ok () heap' ∧ heap.Update heap' k h ⟨some x, count + 1⟩ ∧ heap'.WellFormed ∧
        heap'.interned = heap.interned) ∨
      (∃ k h, v = .ref k h ∧ (heap.get? k h).isSome ∧ retain v heap = .error ⟨k, .countOverflow h⟩ heap) ∨
      (∃ k h, v = .ref k h ∧ heap.get? k h = none ∧ retain v heap = .error ⟨k, .dangling h⟩ heap) := by
  cases v with
  | error | boolean | integer | float | type | opcode => exact .inl ⟨id, rfl⟩
  | ref k h =>
    rw [retain, onStore_eq]
    rcases Store.retain_cases (hw.store k) h with ⟨hpins, hrun⟩ | ⟨x, count, s, hpins, hslot, hrun, hu, hs⟩ |
      ⟨_, hlive, hrun⟩ | ⟨hget, hrun⟩
    · left
      rw [hw.pins_eq] at hpins
      exact ⟨by simp [Value.Counted, hpins], by rw [hrun, locate, setStore_store]⟩
    · right; left
      rw [hw.pins_eq] at hpins
      have hupdate := update_setStore hu
      have hext : heap.Extends (heap.setStore k s) := hupdate.extension fun y hy => by
        rwa [get?_of_slot? hslot] at hy
      exact ⟨k, h, x, count, _, rfl, hpins, hslot, by rw [hrun, locate], hupdate, hw.setStore hs hext,
        interned_setStore _ _ _⟩
    · exact .inr (.inr (.inl ⟨k, h, rfl, hlive, by rw [hrun, locate, setStore_store]⟩))
    · exact .inr (.inr (.inr ⟨k, h, rfl, hget, by rw [hrun, locate, setStore_store]⟩))

theorem releaseAt_eq (k : Kind) (h : Handle) (heap : Heap) :
    releaseAt k h heap =
      match locate k (heap.setStore k) (Store.release h (heap.store k)) with
      | .ok (some x) heap' => .ok (k.references x) (heap'.forgetContent k h x)
      | .ok none heap' => .ok [] heap'
      | .error e heap' => .error e heap' := by
  simp only [releaseAt, bind, EStateM.bind, onStore_eq]
  rcases Store.release h (heap.store k) with ⟨_ | x, s⟩ | ⟨e, s⟩ <;> rfl

/-- `releaseOne` passes over what is not counted, empties a slot at its last reference, counts one less at any other,
and fails at a count of zero or a slot that is not live. -/
theorem releaseOne_cases (hw : heap.WellFormed) (v : Value) :
    (¬ v.Counted ∧ releaseOne v heap = .ok [] heap) ∨
      (∃ k h x heap', v = .ref k h ∧ v.Counted ∧ heap.slot? k h = some ⟨some x, 1⟩ ∧
        releaseOne v heap = .ok (k.references x) heap' ∧ heap.Update heap' k h ⟨none, 0⟩ ∧ heap'.WellFormed ∧
        heap'.interned = (heap.forgetContent k h x).interned) ∨
      (∃ k h x count heap', v = .ref k h ∧ v.Counted ∧ heap.slot? k h = some ⟨some x, count + 2⟩ ∧
        releaseOne v heap = .ok [] heap' ∧ heap.Update heap' k h ⟨some x, count + 1⟩ ∧ heap'.WellFormed ∧
        heap'.interned = heap.interned) ∨
      (∃ k h x, v = .ref k h ∧ v.Counted ∧ heap.slot? k h = some ⟨some x, 0⟩ ∧
        releaseOne v heap = .error ⟨k, .countUnderflow h⟩ heap) ∨
      (∃ k h, v = .ref k h ∧ heap.get? k h = none ∧ releaseOne v heap = .error ⟨k, .dangling h⟩ heap) := by
  cases v with
  | error | boolean | integer | float | type | opcode => exact .inl ⟨id, rfl⟩
  | ref k h =>
    rw [releaseOne, releaseAt_eq]
    rcases Store.release_cases (hw.store k) h with ⟨hpins, hrun⟩ | ⟨x, s, hpins, hslot, hrun, hu, hs⟩ |
      ⟨x, count, s, hpins, hslot, hrun, hu, hs⟩ | ⟨x, hpins, hslot, hrun⟩ | ⟨hget, hrun⟩
    · left
      rw [hw.pins_eq] at hpins
      exact ⟨by simp [Value.Counted, hpins], by rw [hrun, locate, setStore_store]⟩
    · right; left
      rw [hw.pins_eq] at hpins
      exact ⟨k, h, x, _, rfl, hpins, hslot, by rw [hrun, locate], (update_setStore hu).forgetContent x,
        hw.freed hs (get?_of_slot? hslot) hu, interned_forgetContent_setStore x s⟩
    · right; right; left
      rw [hw.pins_eq] at hpins
      have hupdate := update_setStore hu
      have hext : heap.Extends (heap.setStore k s) := hupdate.extension fun y hy => by
        rwa [get?_of_slot? hslot] at hy
      exact ⟨k, h, x, count, _, rfl, hpins, hslot, by rw [hrun, locate], hupdate, hw.setStore hs hext,
        interned_setStore _ _ _⟩
    · right; right; right; left
      rw [hw.pins_eq] at hpins
      exact ⟨k, h, x, rfl, hpins, hslot, by rw [hrun, locate, setStore_store]⟩
    · right; right; right; right
      exact ⟨k, h, rfl, hget, by rw [hrun, locate, setStore_store]⟩

theorem releaseAll_of_ok {v : Value} {held : List Value} (hstep : releaseOne v heap = .ok held heap')
    (rest : List Value) : releaseAll (v :: rest) heap = releaseAll (held ++ rest) heap' := by
  rw [releaseAll]
  split
  · rename_i held' heap'' hstep'
    cases hstep.symm.trans hstep'
    rfl
  · rename_i e heap'' hstep'
    cases hstep.symm.trans hstep'

theorem releaseAll_of_error {v : Value} {e : HeapError} (hstep : releaseOne v heap = .error e heap')
    (rest : List Value) : releaseAll (v :: rest) heap = .error e heap' := by
  rw [releaseAll]
  split
  · rename_i held' heap'' hstep'
    cases hstep.symm.trans hstep'
  · rename_i e' heap'' hstep'
    cases hstep.symm.trans hstep'
    rfl

end Heap

end RefMachine
