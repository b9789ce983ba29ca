import RefMachine.Proofs.Heap.Building
import RefMachine.Proofs.Heap.Calls

/-!
# Building a list

A list of given items is built from its end, and each new cell takes over the one reference to the cell made before it.
`newList_builds_items`: if there is room for a cell for each item, the list consists of new cells that hold the items in
order, the first cell is not referred to and every other is referred to once, and nothing else has changed. If there is
not, the store is full. A list of values without a slot that is referred to and given up leaves the heap as it was.

Between two cells the list that there is so far has a first reference (`Strung`); the next cell takes it over.
-/

namespace RefMachine

namespace Heap

variable {heap heap' heap₁ heap₂ origin : Heap} {h tail : Handle} {item : Value} {items : List Value}
  {cells : List Handle}

/-- The list consists of new cells that hold the items. The first cell is not referred to, and every other one once. -/
structure Built (heap : Heap) (items : List Value) (h : Handle) (cells : List Handle) (heap' : Heap) : Prop where
  chain : heap'.Chain h cells items
  gains : heap.Gains (cells.map (.ref .list)) heap'
  first : ∀ c ∈ cells.head?, heap'.refCount? (.ref .list c) = some 0
  others : ∀ c ∈ cells.tail, heap'.refCount? (.ref .list c) = some 1

/-- The list consists of new cells that hold the items and are referred to once, and it can be given up. -/
structure Strung (heap : Heap) (items : List Value) (h : Handle) (cells : List Handle) (heap' : Heap) : Prop where
  wellFormed : heap'.WellFormed
  chain : heap'.Chain h cells items
  makes : heap.Makes (cells.map (.ref .list)) heap'
  room_eq : heap'.room .list + items.length = heap.room .list
  owes : (∀ v ∈ items, v.handle? = none) → heap'.Owes [.ref .list h] heap

theorem built_nil (heap : Heap) : heap.Built [] .sentinel [] heap :=
  ⟨.nil, .refl heap, fun _ hc => absurd hc (by simp), fun _ hc => absurd hc List.not_mem_nil⟩

theorem strung_nil (hw : heap.WellFormed) : heap.Strung [] .sentinel [] heap :=
  ⟨hw, .nil, .refl heap, rfl, fun _ => (owes_nil (.refl heap)).cons Value.not_counted_emptyList⟩

theorem Strung.cons (hl : origin.Strung items tail cells heap) (hroom : 0 < heap.room .list) (item : Value) :
    ∃ h heap₁ heap₂, Heap.cons item tail heap = .ok h heap₁ ∧ retain (.ref .list h) heap₁ = .ok () heap₂ ∧
      origin.Built (item :: items) h (h :: cells) heap₁ ∧ origin.Strung (item :: items) h (h :: cells) heap₂ := by
  obtain ⟨h, heap₁, heap₂, hk⟩ := exists_kept hl.wellFormed hroom (k := .list) ⟨item, tail⟩
  have hsentinel : h.isSentinel = false := hk.counted
  have hext : heap.Extends heap₁ := hk.inserted.extension fun y hget => by
    rw [hk.dead] at hget
    cases hget
  have hnew : .ref .list h ∉ cells.map (Value.ref .list) := hl.makes.gains.not_mem_of_dead hk.dead
  refine ⟨h, heap₁, heap₂, (hl.chain.cons_eq hl.wellFormed item).trans hk.insert_eq, hk.retain_eq, ?_, ?_⟩
  · refine ⟨.cons hsentinel hk.inserted.get?_self (hl.chain.mono hext), hl.makes.gains.insert hk.dead hk.inserted,
      fun c hc => ?_, fun c hc => ?_⟩
    · cases hc
      exact refCount?_of_slot? hk.inserted.slot?_self
    · have hmem : Value.ref .list c ∈ cells.map (Value.ref .list) := List.mem_map_of_mem hc
      rw [hk.inserted.refCount?_of_ne (ne_of_mem_of_not_mem hmem hnew)]
      exact hl.makes.refCount?_eq _ hmem
  · refine ⟨hk.wellFormed, .cons hsentinel hk.retained.get?_self (hl.chain.mono hk.extension), hl.makes.keep hk, ?_,
      fun hinline => hk.owes hl.wellFormed ?_⟩
    · rw [List.length_cons, ← hl.room_eq, ← hk.room_self]
      omega
    · have hitem : ¬ item.Counted := by
        have hnone := hinline item List.mem_cons_self
        cases item with
        | ref k h => cases hnone
        | error | boolean | integer | float | type | opcode => exact id
      exact (hl.owes fun v hv => hinline v (List.mem_cons_of_mem item hv)).cons hitem

theorem newList_cons (item : Value) (items : List Value) :
    newList (item :: items) = newList items >>= fun tail => retain (.ref .list tail) >>= fun _ => Heap.cons item tail :=
  List.foldrM_cons

theorem newList_of_room (hw : heap.WellFormed) {items : List Value} (hroom : items.length ≤ heap.room .list) :
    ∃ h heap₁ heap₂ cells, newList items heap = .ok h heap₁ ∧ retain (.ref .list h) heap₁ = .ok () heap₂ ∧
      heap.Built items h cells heap₁ ∧ heap.Strung items h cells heap₂ := by
  induction items with
  | nil => exact ⟨.sentinel, heap, heap, [], rfl, retain_of_not_counted hw Value.not_counted_emptyList,
      built_nil heap, strung_nil hw⟩
  | cons item rest ih =>
    rw [List.length_cons] at hroom
    obtain ⟨tail, heap₁, heap₂, cells, hrest, hretain, -, hstrung⟩ := ih (Nat.le_of_succ_le hroom)
    have hroom₂ : 0 < heap₂.room .list := by
      have hused := hstrung.room_eq
      omega
    obtain ⟨h, heap₃, heap₄, hcons, hretain', hbuilt, hstrung'⟩ := hstrung.cons hroom₂ item
    refine ⟨h, heap₃, heap₄, h :: cells, ?_, hretain', hbuilt, hstrung'⟩
    rw [newList_cons, bind_apply_of_ok hrest, bind_apply_of_ok hretain, hcons]

theorem newList_of_no_room (hw : heap.WellFormed) {items : List Value} (hroom : heap.room .list < items.length) :
    ∃ heap', newList items heap = .error ⟨.list, .full⟩ heap' := by
  induction items with
  | nil => exact absurd hroom (Nat.not_lt_zero _)
  | cons item rest ih =>
    rw [newList_cons]
    rw [List.length_cons] at hroom
    by_cases hrest : heap.room .list < rest.length
    · obtain ⟨heap', hrun⟩ := ih hrest
      exact ⟨heap', bind_apply_of_error hrun _⟩
    · -- The cells of the rest have taken the last places.
      obtain ⟨tail, heap₁, heap₂, cells, hrun, hretain, -, hstrung⟩ := newList_of_room hw (Nat.le_of_not_lt hrest)
      have hfull : heap₂.room .list = 0 := by
        have hused := hstrung.room_eq
        omega
      refine ⟨heap₂, ?_⟩
      rw [bind_apply_of_ok hrun, bind_apply_of_ok hretain, hstrung.chain.cons_eq hstrung.wellFormed]
      exact insert_of_no_room hfull _

theorem Built.of_sameStores {origin' : Heap} (hb : origin.Built items h cells heap) (hs₀ : origin.SameStores origin')
    (hs : heap.SameStores heap') : origin'.Built items h cells heap' where
  chain := hb.chain.mono hs.extension
  gains := hb.gains.of_sameStores hs₀ hs
  first c hc := (hs.refCount?_eq _).trans (hb.first c hc)
  others c hc := (hs.refCount?_eq _).trans (hb.others c hc)

/-- **Building a list.** If the store of cells has no room for the items, `newList` leaves it full. Otherwise the list
is linked of new cells, nothing else changes, and a list of values without a slot leaves the heap as it was when its
only reference is given up. -/
theorem newList_builds_items {heap : Heap} (hstores : ∀ k, (heap.store k).WellFormed k.sentinel?) (items : List Value) :
    (heap.room .list < items.length → ∃ heap', newList items heap = .error ⟨.list, .full⟩ heap') ∧
      (items.length ≤ heap.room .list → ∃ h heap' cells, newList items heap = .ok h heap' ∧
        cells.length = items.length ∧ heap.Built items h cells heap' ∧
        ((∀ v ∈ items, v.handle? = none) → ∃ heap₁ heap₂, retain (.ref .list h) heap' = .ok () heap₁ ∧
          release (.ref .list h) heap₁ = .ok () heap₂ ∧ heap.SameObjects heap₂ ∧
          ∀ v, heap₂.counted v = heap.counted v)) := by
  have hw := wellFormed_unshared hstores
  have hs := heap.sameStores_unshared
  rw [hs.room_eq]
  refine ⟨fun hroom => ?_, fun hroom => ?_⟩
  · obtain ⟨heap', hrun⟩ := newList_of_no_room hw hroom
    obtain ⟨heap₁, hrun', -⟩ := (Tableless.newList items).error hs hrun
    exact ⟨heap₁, hrun'⟩
  · obtain ⟨h, heap₁, heap₂, cells, hrun, hretain, hbuilt, hstrung⟩ := newList_of_room hw hroom
    obtain ⟨heap', hrun', hs'⟩ := (Tableless.newList items).ok hs hrun
    obtain ⟨heap₃, hretain', hs₃⟩ := (Tableless.retain _).ok hs' hretain
    refine ⟨h, heap', cells, hrun', hbuilt.chain.length_eq, hbuilt.of_sameStores hs hs', fun hinline => ⟨heap₃, ?_⟩⟩
    obtain ⟨heap₄, hrelease, hobjects, hcounted⟩ :=
      (hstrung.owes hinline).release_of_sameStores hs hs₃ hstrung.wellFormed
    exact ⟨heap₄, hretain', hrelease, hobjects, hcounted⟩

/-- A heap with a cell that is in use and one that was released. -/
def recycledCell : Heap :=
  ofCalls [.newList [.integer 5], .newList [.integer 6], .retain (.ref .list ⟨1⟩), .release (.ref .list ⟨1⟩)]

/-- The last of three cells goes into the released slot, and the other two into new ones. -/
theorem newList_builds_items_recycled :
    recycledCell.lists.free.toList = [⟨1⟩] ∧
      ∃ heap' cells, newList [.integer 7, .boolean true, .error] recycledCell = .ok ⟨4⟩ heap' ∧ cells.length = 3 ∧
        recycledCell.Built [.integer 7, .boolean true, .error] ⟨4⟩ cells heap' ∧
        ∃ heap₁ heap₂, retain (.ref .list ⟨4⟩) heap' = .ok () heap₁ ∧ release (.ref .list ⟨4⟩) heap₁ = .ok () heap₂ ∧
          recycledCell.SameObjects heap₂ ∧ ∀ v, heap₂.counted v = recycledCell.counted v := by
  have hw : recycledCell.WellFormed := wellFormed_ofCalls _
  have hfree : recycledCell.lists.free.toList = [⟨1⟩] := by decide +kernel
  have hsize : recycledCell.lists.slots.size = 3 := by decide +kernel
  have hroom : 3 ≤ recycledCell.room .list := by
    change 3 ≤ recycledCell.lists.room
    rw [Store.room, hfree, hsize]
    decide
  have hanswer : (answer? (newList [.integer 7, .boolean true, .error] recycledCell)).map Prod.fst = some ⟨4⟩ := by
    decide +kernel
  obtain ⟨h, heap', cells, hrun, hlength, hbuilt, hback⟩ :=
    (newList_builds_items hw.store [.integer 7, .boolean true, .error]).2 hroom
  rw [hrun] at hanswer
  cases hanswer
  exact ⟨hfree, heap', cells, hrun, hlength, hbuilt, hback (by decide)⟩

end Heap

end RefMachine
