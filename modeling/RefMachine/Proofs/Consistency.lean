import RefMachine.Proofs.Heap.Calls

/-!
# Stores stay consistent

Slots, counts and the queue of a store are kept in step by every call of the heap, also by one that misuses it and fails
half-way. `Store.Consistent` says what holds of a store at any time, in terms of its slots and its queue alone, and
`calls_consistent` that it does after every sequence of calls. A new object never takes the place of another, and no
object changes while it is there.
-/

namespace RefMachine

namespace Store

variable {α : Type} {s : Store α} {sentinel : Option α}

/-- The indices of the queued slots, in the order of their release. -/
def queue (s : Store α) : List Nat :=
  s.free.toList.map Handle.index

/-- The queue holds each released slot once, a released slot counts nothing, the sentinel stays where and as it was, and
the objects held are as many as the slots that are neither queued nor pinned. That there is a count for each content
(`rows`) holds of every store, since a slot has both. -/
structure Consistent (s : Store α) (sentinel : Option α) : Prop where
  rows : (s.slots.map Slot.content).size = (s.slots.map Slot.count).size
  queue_nodup : s.queue.Nodup
  mem_queue_iff : ∀ i, i ∈ s.queue ↔ ∃ slot, s.slots[i]? = some slot ∧ slot.content = none
  released : ∀ slot ∈ s.slots, slot.content = none → slot.count = 0
  pinned : ∀ x ∈ sentinel, s.slots[0]? = some ⟨some x, maxCount / 2⟩ ∧ 0 ∉ s.queue
  queue_le : s.queue.length + sentinel.toList.length ≤ s.slots.size
  sentinel_le : sentinel.toList.length ≤ s.slots.countP fun slot => slot.content.isSome
  liveCount_eq : s.liveCount = s.slots.size - s.queue.length - sentinel.toList.length

namespace WellFormed

theorem mem_queue_iff (hs : s.WellFormed sentinel) (i : Nat) :
    i ∈ s.queue ↔ ∃ slot, s.slots[i]? = some slot ∧ slot.content = none := by
  constructor
  · intro hi
    obtain ⟨h, hh, rfl⟩ := List.mem_map.mp hi
    exact ⟨_, (hs.mem_free h).mp hh, rfl⟩
  · rintro ⟨⟨content, count⟩, hslot, rfl⟩
    obtain ⟨hlt, -⟩ := Array.getElem?_eq_some_iff.mp hslot
    obtain ⟨h, rfl⟩ := hs.exists_handle hlt
    rw [hs.released h count hslot] at hslot
    exact List.mem_map_of_mem ((hs.mem_free h).mpr hslot)

theorem queue_nodup (hs : s.WellFormed sentinel) : s.queue.Nodup :=
  hs.free_nodup.map fun _ _ => Handle.index_inj.mp

theorem length_queue (hs : s.WellFormed sentinel) :
    s.queue.length = s.slots.countP fun slot => decide (slot.content = none) := by
  have hperm : s.queue.Perm (s.slots.toList.findIdxs fun slot => decide (slot.content = none)) := by
    refine (List.perm_ext_iff_of_nodup hs.queue_nodup List.nodup_findIdxs).mpr fun i => ?_
    rw [hs.mem_queue_iff, List.mem_findIdxs_iff_exists_getElem_pos]
    simp [Array.getElem?_eq_some_iff]
  rw [hperm.length_eq, List.length_findIdxs, Array.countP_toList]

theorem consistent (hs : s.WellFormed sentinel) : s.Consistent sentinel := by
  have hsplit : s.slots.size = (s.slots.countP fun slot => slot.content.isSome) + s.queue.length := by
    rw [hs.length_queue, Array.size_eq_countP_add_countP (p := fun slot : Slot α => slot.content.isSome)]
    simp
  have hpinned : ∀ x ∈ sentinel, s.slots[0]? = some ⟨some x, maxCount / 2⟩ := hs.pinned
  have hsentinel : sentinel.toList.length ≤ s.slots.countP fun slot => slot.content.isSome := by
    rcases sentinel with _ | x
    · exact Nat.zero_le _
    · rw [Option.toList_some, List.length_singleton, Array.one_le_countP_iff]
      exact ⟨_, Array.mem_of_getElem? (hpinned x rfl), rfl⟩
  have hlive : s.liveCount = (s.slots.countP fun slot => slot.content.isSome) - sentinel.toList.length := by
    rw [liveCount, hs.hasSentinel_eq]
    cases sentinel <;> rfl
  refine ⟨by simp, hs.queue_nodup, hs.mem_queue_iff, fun slot hslot hnone => ?_,
    fun x hx => ⟨hpinned x hx, fun hmem => ?_⟩, by omega, hsentinel, by omega⟩
  · obtain ⟨i, hi⟩ := Array.getElem?_of_mem hslot
    obtain ⟨hlt, -⟩ := Array.getElem?_eq_some_iff.mp hi
    obtain ⟨h, rfl⟩ := hs.exists_handle hlt
    refine hs.released h slot.count ?_
    rw [slot?, hi, ← hnone]
  · obtain ⟨slot, hslot, hnone⟩ := (hs.mem_queue_iff 0).mp hmem
    rw [hpinned x hx] at hslot
    cases hslot
    cases hnone

end WellFormed

end Store

/-- **Consistency.** Whatever calls are made of a new heap, and however they end, its stores are `Consistent`. The next
call changes no object that is live before and after it, and answers with a value that it found, or with a slot that was
not live before and has no references. -/
theorem calls_consistent (calls : List HeapCall) :
    (∀ k, ((Heap.ofCalls calls).store k).Consistent k.sentinel?) ∧
      ∀ call : HeapCall,
        (∀ v heap', call.run (Heap.ofCalls calls) = .ok (some v) heap' →
          HeapCall.Finds (Heap.ofCalls calls) call v ∧ heap' = Heap.ofCalls calls ∨
            (Heap.ofCalls calls).Places v heap') ∧
        ∀ k h x x', (Heap.ofCalls calls).get? k h = some x →
          (call.after (Heap.ofCalls calls)).get? k h = some x' → x' = x := by
  have hw := Heap.wellFormed_ofCalls calls
  refine ⟨fun k => (hw.store k).consistent, fun call => ⟨fun v heap' hrun => ?_, fun k h x x' hget hget' => ?_⟩⟩
  · exact ((HeapCall.run_ends hw call).of_ok hrun).2 v rfl
  · exact (call.follows hw).get?_eq hget hget'

/-- A tuple that holds itself is released, the release of what it held fails, and the next tuple takes its slot. -/
theorem calls_consistent_self_holding :
    let calls := [.newTuple [.ref .tuple ⟨1⟩], .retain (.ref .tuple ⟨1⟩), .release (.ref .tuple ⟨1⟩)]
    ((Heap.ofCalls calls).store .tuple).queue = [1] ∧
      ((Heap.ofCalls calls).store .tuple).Consistent Kind.tuple.sentinel? ∧
      ∃ heap', (HeapCall.newTuple []).run (Heap.ofCalls calls) = .ok (some (.ref .tuple ⟨1⟩)) heap' ∧
        (Heap.ofCalls calls).Places (.ref .tuple ⟨1⟩) heap' := by
  intro calls
  obtain ⟨hstores, hcall⟩ := calls_consistent calls
  have hanswer : (answer? ((HeapCall.newTuple []).run (Heap.ofCalls calls))).map Prod.fst =
      some (some (.ref .tuple ⟨1⟩)) := by
    decide +kernel
  obtain ⟨⟨_, heap'⟩, hrun, rfl⟩ := Option.map_eq_some_iff.mp hanswer
  rw [answer?_eq_some_iff] at hrun
  refine ⟨by decide +kernel, hstores .tuple, heap', hrun, ?_⟩
  rcases (hcall (.newTuple [])).1 _ _ hrun with ⟨hfinds, -⟩ | hplaces
  · cases hfinds
  · exact hplaces

end RefMachine
