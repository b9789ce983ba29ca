import RefMachine.Proofs.Heap.Restore
import RefMachine.Proofs.Heap.Tableless

/-!
# Building structures of new objects

A store has room for an object as long as a released slot is queued or the row of slots can grow (`Store.room`); an
object that is put in takes up one of these places, and without room the store is full. With room, an object goes into a
slot that was not live and can be given its first reference (`Kept`).

Objects that are made one after another are in different slots, and all other slots stay as they were (`Gains`). If each
new object takes over the references to those made before it, giving up the last gives up all (`Kept.owes`). The lists
that are built this way are followed from cell to cell by `Chain`.
-/

namespace RefMachine

namespace Store

variable {α : Type} {s s' : Store α} {sentinel : Option α} {h : Handle} {x : α}

/-- How many objects can be put in before the store is full. -/
def room (s : Store α) : Nat :=
  s.free.toList.length + (UInt32.size - s.slots.size)

theorem room_of_insert (hrun : insert x s = .ok h s') : s'.room + 1 = s.room := by
  unfold insert at hrun
  split at hrun
  · rename_i hpop
    cases hrun
    simp only [room, Fifo.toList_of_pop? hpop, Array.size_setIfInBounds, List.length_cons]
    omega
  · split_ifs at hrun with hsize
    cases hrun
    simp only [room, Array.size_push]
    omega

theorem room_of_retain (hrun : retain h s = .ok () s') : s'.room = s.room := by
  unfold retain at hrun
  split_ifs at hrun with hpins
  · cases hrun
    rfl
  · split at hrun
    · split_ifs at hrun
      cases hrun
      simp only [room, Array.size_setIfInBounds]
    · cases hrun

theorem insert_of_no_room (hroom : s.room = 0) (x : α) : insert x s = .error .full s := by
  have hfree : s.free.toList = [] := List.eq_nil_of_length_eq_zero (Nat.eq_zero_of_add_eq_zero_right hroom)
  have hsize : ¬ s.slots.size < UInt32.size := by
    have hrest : UInt32.size - s.slots.size = 0 := Nat.eq_zero_of_add_eq_zero_left hroom
    omega
  simp only [insert, Fifo.pop?_eq_none_iff.mpr hfree, if_neg hsize]

theorem exists_get?_eq_none (hs : s.WellFormed sentinel) (hroom : 0 < s.room) : ∃ h, s.get? h = none := by
  cases hfree : s.free.toList with
  | cons h rest =>
    have hslot := (hs.mem_free h).mp (hfree ▸ List.mem_cons_self)
    exact ⟨h, get?_of_slot? hslot⟩
  | nil =>
    rw [room, hfree, List.length_nil] at hroom
    have hsize : s.slots.size < UInt32.size := by omega
    refine ⟨⟨s.slots.size.toUInt32⟩, ?_⟩
    rw [get?_eq, slot?, Handle.index_toUInt32 hsize, Array.getElem?_size, Option.bind_none]

end Store

namespace Heap

variable {heap heap' heap₁ heap₂ origin : Heap} {k : Kind} {h tail : Handle} {v : Value} {x : k.Content}
  {made due items : List Value} {cells : List Handle}

/-! ## Room -/

def room (heap : Heap) (k : Kind) : Nat :=
  (heap.store k).room

theorem insert_of_no_room (hroom : heap.room k = 0) (x : k.Content) : insert k x heap = .error ⟨k, .full⟩ heap := by
  rw [insert, onStore_eq, Store.insert_of_no_room hroom, locate, setStore_store]

theorem room_of_insert (hrun : insert k x heap = .ok h heap') :
    heap'.room k + 1 = heap.room k ∧ ∀ k' ≠ k, heap'.room k' = heap.room k' := by
  rw [insert, onStore_eq] at hrun
  cases hstore : Store.insert x (heap.store k) with
  | error e s =>
    rw [hstore] at hrun
    cases hrun
  | ok h₁ s =>
    rw [hstore] at hrun
    cases hrun
    refine ⟨?_, fun k' hne => ?_⟩
    · rw [room, store_setStore, Store.room_of_insert hstore, room]
    · rw [room, store_setStore_of_ne _ _ hne, room]

theorem room_of_retain (hrun : retain (.ref k h) heap = .ok () heap') (k' : Kind) : heap'.room k' = heap.room k' := by
  rw [retain, onStore_eq] at hrun
  cases hstore : Store.retain h (heap.store k) with
  | error e s =>
    rw [hstore] at hrun
    cases hrun
  | ok u s =>
    rw [hstore] at hrun
    cases hrun
    by_cases hne : k' = k
    · subst hne
      rw [room, store_setStore, Store.room_of_retain hstore, room]
    · rw [room, store_setStore_of_ne _ _ hne, room]

/-! ## New objects -/

/-- An object is put into a slot that was not live, and then gets its first reference. -/
structure Kept (heap : Heap) (k : Kind) (x : k.Content) (h : Handle) (heap₁ heap₂ : Heap) : Prop where
  insert_eq : insert k x heap = .ok h heap₁
  retain_eq : retain (.ref k h) heap₁ = .ok () heap₂
  counted : (Value.ref k h).Counted
  dead : heap.get? k h = none
  inserted : heap.Update heap₁ k h ⟨some x, 0⟩
  retained : heap.Update heap₂ k h ⟨some x, 1⟩
  wellFormed : heap₂.WellFormed
  interned_eq : heap₂.interned = heap.interned

theorem exists_kept (hw : heap.WellFormed) (hroom : 0 < heap.room k) (x : k.Content) :
    ∃ h heap₁ heap₂, heap.Kept k x h heap₁ heap₂ := by
  have hslot : ∃ h, heap.get? k h = none := Store.exists_get?_eq_none (hw.store k) hroom
  obtain ⟨h, heap₁, heap₂, hinsert, hretain, hcounted, hdead, hretained, hw₂, htable⟩ := keep_of_room hw hslot x
  refine ⟨h, heap₁, heap₂, hinsert, hretain, hcounted, hdead, ?_, hretained, hw₂, htable⟩
  rcases insert_cases hw x with ⟨h', heap', hrun, -, hu, -⟩ | hrun
  · cases hinsert.symm.trans hrun
    exact hu
  · cases hinsert.symm.trans hrun

namespace Kept

theorem room_self (hk : heap.Kept k x h heap₁ heap₂) : heap₂.room k + 1 = heap.room k := by
  rw [room_of_retain hk.retain_eq]
  exact (room_of_insert hk.insert_eq).1

theorem room_of_ne (hk : heap.Kept k x h heap₁ heap₂) {k' : Kind} (hne : k' ≠ k) : heap₂.room k' = heap.room k' := by
  rw [room_of_retain hk.retain_eq]
  exact (room_of_insert hk.insert_eq).2 k' hne

theorem bind_apply {β : Type} (hk : heap.Kept k x h heap₁ heap₂) {new : HeapM Handle} (hnew : new heap = insert k x heap)
    (f : Handle → HeapM β) : (new >>= fun h => retain (.ref k h) >>= fun _ => f h) heap = f h heap₂ := by
  rw [bind_apply_of_ok (hnew.trans hk.insert_eq), bind_apply_of_ok hk.retain_eq]

theorem extension (hk : heap.Kept k x h heap₁ heap₂) : heap.Extends heap₂ := by
  refine hk.retained.extension fun y hget => ?_
  rw [hk.dead] at hget
  cases hget

theorem owes (hk : heap.Kept k x h heap₁ heap₂) (hw : heap.WellFormed) (howes : heap.Owes (k.references x) origin) :
    heap₂.Owes [.ref k h] origin :=
  howes.of_update hw hk.counted hk.dead hk.retained hk.interned_eq

end Kept

theorem refCount?_of_slot? {count : Nat} (hslot : heap.slot? k h = some ⟨some x, count⟩) :
    heap.refCount? (.ref k h) = some count := by
  have hslot' : (heap.store k).slots[h.index]? = some ⟨some x, count⟩ := hslot
  simp [refCount?, Store.count?, hslot']

theorem Update.refCount?_of_ne {new : Slot k.Content} (hu : heap.Update heap' k h new) (hne : v ≠ .ref k h) :
    heap'.refCount? v = heap.refCount? v := by
  cases v with
  | ref k' h' =>
    exact congrArg (·.bind fun slot => slot.content.map fun _ => slot.count) (hu.slot?_of_ne k' h' hne)
  | error | boolean | integer | float | type | opcode => rfl

/-- The values refer to different slots that were not live and now are, and every other slot is as it was. -/
structure Gains (heap : Heap) (made : List Value) (heap' : Heap) : Prop where
  nodup : made.Nodup
  dead : ∀ v ∈ made, ¬ heap.Live v
  live : ∀ v ∈ made, heap'.Live v
  slot?_eq : ∀ k h, .ref k h ∉ made → heap'.slot? k h = heap.slot? k h

namespace Gains

theorem refl (heap : Heap) : heap.Gains [] heap :=
  ⟨List.nodup_nil, fun _ hv => absurd hv List.not_mem_nil, fun _ hv => absurd hv List.not_mem_nil, fun _ _ _ => rfl⟩

theorem not_mem_of_dead (hg : heap.Gains made heap') (hdead : heap'.get? k h = none) : .ref k h ∉ made := by
  intro hmem
  have hlive := hg.live _ hmem
  rw [Live, hdead] at hlive
  cases hlive

theorem insert {count : Nat} (hg : origin.Gains made heap) (hdead : heap.get? k h = none)
    (hu : heap.Update heap' k h ⟨some x, count⟩) : origin.Gains (.ref k h :: made) heap' where
  nodup := List.nodup_cons.mpr ⟨hg.not_mem_of_dead hdead, hg.nodup⟩
  dead v hv := by
    rcases List.mem_cons.mp hv with rfl | hv
    · have hslot := hg.slot?_eq k h (hg.not_mem_of_dead hdead)
      have hget : origin.get? k h = none := (congrArg (·.bind Slot.content) hslot).symm.trans hdead
      rw [Live, hget]
      exact Bool.false_ne_true
    · exact hg.dead v hv
  live v hv := by
    by_cases heq : v = .ref k h
    · rw [heq]
      exact live_of_get? hu.get?_self
    · exact (hu.live_of_ne heq).mpr (hg.live v ((List.mem_cons.mp hv).resolve_left heq))
  slot?_eq k' h' hnot := by
    rw [List.mem_cons, not_or] at hnot
    rw [hu.slot?_of_ne k' h' hnot.1, hg.slot?_eq k' h' hnot.2]

end Gains

/-- The objects are new, and each has one reference. -/
structure Makes (heap : Heap) (made : List Value) (heap' : Heap) : Prop where
  gains : heap.Gains made heap'
  refCount?_eq : ∀ v ∈ made, heap'.refCount? v = some 1

namespace Makes

theorem refl (heap : Heap) : heap.Makes [] heap :=
  ⟨.refl heap, fun _ hv => absurd hv List.not_mem_nil⟩

theorem keep (hm : origin.Makes made heap) (hk : heap.Kept k x h heap₁ heap₂) :
    origin.Makes (.ref k h :: made) heap₂ where
  gains := hm.gains.insert hk.dead hk.retained
  refCount?_eq v hv := by
    by_cases heq : v = .ref k h
    · rw [heq]
      exact refCount?_of_slot? hk.retained.slot?_self
    · rw [hk.retained.refCount?_of_ne heq]
      exact hm.refCount?_eq v ((List.mem_cons.mp hv).resolve_left heq)

end Makes

/-! ## Chains of cells -/

/-- The cells of a list, with the items that they hold, from its first cell to the empty list. -/
inductive Chain (heap : Heap) : Handle → List Handle → List Value → Prop where
  | nil : Chain heap .sentinel [] []
  | cons {h tail : Handle} {cells : List Handle} {head : Value} {items : List Value} (hsentinel : h.isSentinel = false)
    (hget : heap.get? .list h = some ⟨head, tail⟩) (htail : Chain heap tail cells items) :
    Chain heap h (h :: cells) (head :: items)

namespace Chain

theorem length_eq (hc : heap.Chain h cells items) : cells.length = items.length := by
  induction hc with
  | nil => rfl
  | cons _ _ _ ih => rw [List.length_cons, List.length_cons, ih]

theorem mono (hc : heap.Chain h cells items) (hext : heap.Extends heap') : heap'.Chain h cells items := by
  induction hc with
  | nil => exact .nil
  | cons hsentinel hget _ ih => exact .cons hsentinel (hext .list _ _ hget) ih

theorem exists_cell (hc : heap.Chain h cells items) (hw : heap.WellFormed) : ∃ cell, heap.get? .list h = some cell := by
  cases hc with
  | nil => exact ⟨_, hw.get?_of_pins rfl⟩
  | cons _ hget _ => exact ⟨_, hget⟩

theorem cons_eq (hc : heap.Chain tail cells items) (hw : heap.WellFormed) (head : Value) :
    Heap.cons head tail heap = Heap.insert .list ⟨head, tail⟩ heap := by
  obtain ⟨cell, hget⟩ := hc.exists_cell hw
  have hget' : heap.lists.get? tail = some cell := hget
  rw [Heap.cons, get_bind_apply, hget']

end Chain

/-! ## Whatever texts are shared -/

section SameStores

variable {origin' : Heap} (hs₀ : origin.SameStores origin') (hs : heap.SameStores heap')

include hs

theorem SameStores.live_iff (v : Value) : heap'.Live v ↔ heap.Live v := by
  cases v with
  | ref k h => rw [Live, hs.get?_eq, Live]
  | error | boolean | integer | float | type | opcode => rfl

theorem SameStores.counted_eq (v : Value) : heap'.counted v = heap.counted v := by
  cases v with
  | ref k h => rw [counted, hs k, counted]
  | error | boolean | integer | float | type | opcode => rfl

theorem SameStores.room_eq (k : Kind) : heap'.room k = heap.room k := by
  rw [room, hs k, room]

include hs₀

theorem Gains.of_sameStores (hg : origin.Gains made heap) : origin'.Gains made heap' where
  nodup := hg.nodup
  dead v hv := (hs₀.live_iff v).not.mpr (hg.dead v hv)
  live v hv := (hs.live_iff v).mpr (hg.live v hv)
  slot?_eq k h hnot := by
    rw [hs.slot?_eq, hs₀.slot?_eq, hg.slot?_eq k h hnot]

theorem Owes.release_of_sameStores (howes : heap.Owes [v] origin) (hw : heap.WellFormed) :
    ∃ heap₁, Heap.release v heap' = .ok () heap₁ ∧ origin'.SameObjects heap₁ ∧
      ∀ w, heap₁.counted w = origin'.counted w := by
  obtain ⟨heap₁, hrun, halike, -⟩ := howes.release hw
  obtain ⟨heap₂, hrun', hs₁⟩ := (Tableless.release v).ok hs hrun
  refine ⟨heap₂, hrun', fun k h => ?_, fun w => ?_⟩
  · rw [hs₁.get?_eq, halike.objects, hs₀.get?_eq]
  · rw [hs₁.counted_eq, halike.counted_eq, hs₀.counted_eq]

end SameStores

end Heap

end RefMachine
