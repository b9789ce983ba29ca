import RefMachine.Proofs.Heap.Slots

/-!
# Operations that do not read the table of shared texts

The table decides which slot a shared text gets, and nothing else. An operation that shares no text does the same to
heaps with the same stores, whatever their tables: it has the same outcome, and leaves the same stores (`Tableless`).
So what is known of such an operation on a heap without shared texts is known of it on every heap with these stores.
-/

namespace RefMachine

namespace Heap

variable {heap heap' : Heap} {k : Kind} {h : Handle}

/-- The stores are the same, with all slots and queues. -/
def SameStores (heap heap' : Heap) : Prop :=
  ∀ k, heap'.store k = heap.store k

namespace SameStores

theorem slot?_eq (hs : heap.SameStores heap') (k : Kind) (h : Handle) : heap'.slot? k h = heap.slot? k h := by
  rw [slot?, hs k, slot?]

theorem get?_eq (hs : heap.SameStores heap') (k : Kind) (h : Handle) : heap'.get? k h = heap.get? k h := by
  rw [get?, hs k, get?]

theorem refCount?_eq (hs : heap.SameStores heap') (v : Value) : heap'.refCount? v = heap.refCount? v := by
  cases v with
  | ref k h => rw [refCount?, hs k, refCount?]
  | error | boolean | integer | float | type | opcode => rfl

theorem extension (hs : heap.SameStores heap') : heap.Extends heap' :=
  fun k h _ hget => (hs.get?_eq k h).trans hget

theorem setStore (hs : heap.SameStores heap') (k : Kind) (s : Store k.Content) :
    (heap.setStore k s).SameStores (heap'.setStore k s) := by
  intro k'
  by_cases hk : k' = k
  · subst hk
    rw [store_setStore, store_setStore]
  · rw [store_setStore_of_ne _ _ hk, store_setStore_of_ne _ _ hk]
    exact hs k'

end SameStores

/-- The heap with the same stores and no shared text. -/
def unshared (heap : Heap) : Heap :=
  { heap with interned := [] }

theorem sameStores_unshared (heap : Heap) : heap.unshared.SameStores heap := by
  intro k
  cases k <;> rfl

theorem wellFormed_unshared (hstores : ∀ k, (heap.store k).WellFormed k.sentinel?) : heap.unshared.WellFormed where
  store k := by
    rw [← heap.sameStores_unshared k]
    exact hstores k
  interned entry hentry := absurd hentry List.not_mem_nil
  interned_nodup := List.nodup_nil

theorem store_forgetContent (x : k.Content) (heap : Heap) (k' : Kind) :
    (heap.forgetContent k h x).store k' = heap.store k' := by
  cases k with
  | string =>
    rw [forgetContent, forget]
    split
    · cases k' <;> rfl
    · rfl
  | tuple | list | expression => rfl

/-- The same outcome and the same stores afterwards, whatever texts are shared. -/
def Tableless {α : Type} (f : HeapM α) : Prop :=
  ∀ ⦃heap heap' : Heap⦄, heap.SameStores heap' →
    Ends (fun a heap₁ => ∃ heap₂, f heap' = .ok a heap₂ ∧ heap₁.SameStores heap₂)
      (fun e heap₁ => ∃ heap₂, f heap' = .error e heap₂ ∧ heap₁.SameStores heap₂) (f heap)

namespace Tableless

variable {α β : Type}

theorem ok {f : HeapM α} (hf : Tableless f) (hs : heap.SameStores heap') {a : α} {heap₁ : Heap}
    (hrun : f heap = .ok a heap₁) : ∃ heap₂, f heap' = .ok a heap₂ ∧ heap₁.SameStores heap₂ :=
  (hf hs).of_ok hrun

theorem error {f : HeapM α} (hf : Tableless f) (hs : heap.SameStores heap') {e : HeapError} {heap₁ : Heap}
    (hrun : f heap = .error e heap₁) : ∃ heap₂, f heap' = .error e heap₂ ∧ heap₁.SameStores heap₂ :=
  (hf hs).of_error hrun

theorem pure (a : α) : Tableless (pure a) :=
  fun _ heap' hs => ⟨heap', rfl, hs⟩

theorem throw (e : HeapError) : Tableless (throw e : HeapM α) :=
  fun _ heap' hs => ⟨heap', rfl, hs⟩

theorem bind {x : HeapM α} {f : α → HeapM β} (hx : Tableless x) (hf : ∀ a, Tableless (f a)) : Tableless (x >>= f) := by
  intro heap heap' hs
  refine ((hx hs).mono (fun _ _ hgood => hgood) ?_).bind ?_
  · rintro e heap₁ ⟨heap₂, hrun, hs₁⟩
    exact ⟨heap₂, bind_apply_of_error hrun f, hs₁⟩
  · rintro a heap₁ ⟨heap₂, hrun, hs₁⟩
    rw [bind_apply_of_ok hrun]
    exact hf a hs₁

theorem onStore (k : Kind) (f : EStateM SlotError (Store k.Content) α) : Tableless (Heap.onStore k f) := by
  intro heap heap' hs
  rw [onStore_eq, onStore_eq, hs k]
  cases f (heap.store k) with
  | ok a s => exact ⟨_, rfl, hs.setStore k s⟩
  | error e s => exact ⟨_, rfl, hs.setStore k s⟩

theorem insert (x : k.Content) : Tableless (Heap.insert k x) :=
  onStore k _

theorem retain (v : Value) : Tableless (Heap.retain v) := by
  cases v with
  | ref k h => exact onStore k _
  | error | boolean | integer | float | type | opcode => exact pure ()

theorem cons (head : Value) (tail : Handle) : Tableless (Heap.cons head tail) := by
  intro heap heap' hs
  have hlists : heap'.lists = heap.lists := hs .list
  unfold Heap.cons
  rw [get_bind_apply, get_bind_apply, hlists]
  cases heap.lists.get? tail with
  | some cell => exact insert (k := .list) ⟨head, tail⟩ hs
  | none => exact throw ⟨.list, .dangling tail⟩ hs

theorem newList (items : List Value) : Tableless (Heap.newList items) := by
  unfold Heap.newList
  induction items with
  | nil => exact pure _
  | cons item rest ih =>
    rw [List.foldrM_cons]
    exact ih.bind fun tail => (retain _).bind fun _ => cons item tail

theorem releaseOne (v : Value) : Tableless (Heap.releaseOne v) := by
  cases v with
  | ref k h =>
    refine (onStore k (Store.release h)).bind fun released => ?_
    cases released with
    | some x =>
      intro heap heap' hs
      refine ⟨heap'.forgetContent k h x, rfl, fun k' => ?_⟩
      rw [store_forgetContent, hs k']
      exact (store_forgetContent x heap k').symm
    | none => exact pure []
  | error | boolean | integer | float | type | opcode => exact pure []

theorem release (v : Value) : Tableless (Heap.release v) := by
  intro heap heap' hs
  unfold Heap.release
  generalize [v] = pending
  induction pending, heap using releaseAll.induct generalizing heap' with
  | case1 heap =>
    rw [releaseAll, releaseAll]
    exact ⟨heap', rfl, hs⟩
  | case2 heap v rest held heap₁ hrun ih =>
    obtain ⟨heap₂, hrun', hs₁⟩ := (releaseOne v).ok hs hrun
    rw [releaseAll_of_ok hrun, releaseAll_of_ok hrun']
    exact ih hs₁
  | case3 heap v rest e heap₁ hrun =>
    obtain ⟨heap₂, hrun', hs₁⟩ := (releaseOne v).error hs hrun
    rw [releaseAll_of_error hrun, releaseAll_of_error hrun']
    exact ⟨heap₂, rfl, hs₁⟩

end Tableless

end Heap

end RefMachine
