import RefMachine.Proofs.Machine.Evaluate

/-!
# The cascade of a release

Giving up one reference may release an object, with it the references that it held, and so on through everything that
nothing else refers to. `Sheds heap freed heap'` is the record of what a cascade gave up: the slots, each once and in
the order in which they went to the ends of the queues, and with them the references that their objects held. A single
release sheds one slot or none, and what follows one another is added up (`Sheds.trans`).

The record says nothing of why a slot was released. That comes from the counts being exact before and after: what is
left is what is still referred to (`release_cascade`).
-/

namespace RefMachine

namespace Store

variable {α : Type} {s : Store α} {h : Handle} {x : α}

theorem release_of_last (hpins : s.pins h = false) (hslot : s.slot? h = some ⟨some x, 1⟩) :
    release h s = .ok (some x) { s with slots := s.slots.setIfInBounds h.index ⟨none, 0⟩, free := s.free.push h } := by
  have hslot' : s.slots[h.index]? = some ⟨some x, 1⟩ := hslot
  simp [release, hpins, hslot']

theorem release_of_more {count : Nat} (hpins : s.pins h = false) (hslot : s.slot? h = some ⟨some x, count + 2⟩) :
    release h s = .ok none { s with slots := s.slots.setIfInBounds h.index ⟨some x, count + 1⟩ } := by
  have hslot' : s.slots[h.index]? = some ⟨some x, count + 2⟩ := hslot
  simp [release, hpins, hslot']

end Store

namespace Heap

variable {heap heap' heap'' : Heap} {k : Kind} {h : Handle} {v w : Value} {roots : Multiset Value}

theorem Extends.live (hext : heap'.Extends heap) (hlive : heap'.Live v) : heap.Live v := by
  cases v with
  | error | boolean | integer | float | type | opcode => trivial
  | ref k h =>
    obtain ⟨x, hget⟩ := Option.isSome_iff_exists.mp hlive
    exact live_of_get? (hext k h x hget)

theorem Extends.children_of_live (hext : heap'.Extends heap) (hlive : heap'.Live v) :
    heap.children v = heap'.children v := by
  cases v with
  | error | boolean | integer | float | type | opcode => rfl
  | ref k h =>
    obtain ⟨x, hget⟩ := Option.isSome_iff_exists.mp hlive
    rw [children, hext k h x hget, children, hget]

theorem free_forgetContent (x : k.Content) (heap : Heap) (k' : Kind) :
    ((heap.forgetContent k h x).store k').free = (heap.store k').free := by
  cases k with
  | string =>
    simp only [forgetContent, forget]
    split <;> cases k' <;> rfl
  | tuple | list | expression => rfl

theorem queue_of_last {x : k.Content} {held : List Value} (hw : heap.WellFormed) (hv : (Value.ref k h).Counted)
    (hslot : heap.slot? k h = some ⟨some x, 1⟩) (hrun : releaseOne (.ref k h) heap = .ok held heap') (k' : Kind) :
    (heap'.store k').free.toList = (heap.store k').free.toList ++ [Value.ref k h].filterMap (Value.handleOf? k') := by
  have hpins : (heap.store k).pins h = false := (hw.pins_eq k h).trans hv
  rw [releaseOne, releaseAt_eq, Store.release_of_last hpins hslot] at hrun
  cases hrun
  rw [free_forgetContent]
  by_cases hk : k' = k
  · subst hk
    simp [store_setStore, Value.handleOf?]
  · simp [store_setStore_of_ne _ _ hk, Value.handleOf?, Ne.symm hk]

theorem queue_of_more {x : k.Content} {count : Nat} {held : List Value} (hw : heap.WellFormed)
    (hv : (Value.ref k h).Counted) (hslot : heap.slot? k h = some ⟨some x, count + 2⟩)
    (hrun : releaseOne (.ref k h) heap = .ok held heap') (k' : Kind) :
    (heap'.store k').free = (heap.store k').free := by
  have hpins : (heap.store k).pins h = false := (hw.pins_eq k h).trans hv
  rw [releaseOne, releaseAt_eq, Store.release_of_more hpins hslot] at hrun
  cases hrun
  by_cases hk : k' = k
  · subst hk
    rw [store_setStore]
  · rw [store_setStore_of_ne _ _ hk]

/-! ## What was given up -/

/-- From the one heap to the other, just these slots were released, each once and in this order, and with them the
references in their objects; the other objects are as they were. -/
structure Sheds (heap : Heap) (freed : List Value) (heap' : Heap) : Prop where
  nodup : freed.Nodup
  mem_iff : ∀ w, w ∈ freed ↔ w.Counted ∧ heap.Live w ∧ ¬ heap'.Live w
  queue_eq : ∀ k, (heap'.store k).free.toList = (heap.store k).free.toList ++ freed.filterMap (Value.handleOf? k)
  occurrences_eq : ∀ w, heap.occurrences w = heap'.occurrences w + (freed.flatMap heap.children).count w
  restriction : heap'.Extends heap

namespace Sheds

variable {freed freed' : List Value}

theorem of_sameObjects (hsame : heap.SameObjects heap') (hqueue : ∀ k, (heap'.store k).free = (heap.store k).free)
    (hocc : ∀ w, heap'.occurrences w = heap.occurrences w) : heap.Sheds [] heap' where
  nodup := List.nodup_nil
  mem_iff w := by
    refine ⟨fun hmem => absurd hmem List.not_mem_nil, fun ⟨_, hlive, hdead⟩ => ?_⟩
    exact absurd (hsame.live hlive) hdead
  queue_eq k := by rw [hqueue, List.filterMap_nil, List.append_nil]
  occurrences_eq w := by rw [hocc, List.flatMap_nil, List.count_nil, Nat.add_zero]
  restriction := hsame.restriction

theorem of_freed {x : k.Content} (hv : (Value.ref k h).Counted) (hget : heap.get? k h = some x)
    (hu : heap.Update heap' k h ⟨none, 0⟩)
    (hqueue : ∀ k', (heap'.store k').free.toList =
      (heap.store k').free.toList ++ [Value.ref k h].filterMap (Value.handleOf? k')) :
    heap.Sheds [.ref k h] heap' where
  nodup := List.nodup_singleton _
  mem_iff w := by
    rw [List.mem_singleton]
    constructor
    · rintro rfl
      exact ⟨hv, live_of_get? hget, by rw [hu.live_self]; simp⟩
    · rintro ⟨-, hlive, hdead⟩
      by_contra hne
      exact hdead ((hu.live_of_ne hne).mpr hlive)
  queue_eq := hqueue
  occurrences_eq w := by
    have hocc := hu.occurrences_eq w
    simp only [hget, Option.map_some, Option.getD_some, Option.map_none, Option.getD_none] at hocc
    rw [List.flatMap_singleton, children_of_get? hv hget]
    omega
  restriction k' h' y hy := by
    by_cases heq : Value.ref k' h' = .ref k h
    · cases heq
      rw [hu.get?_self] at hy
      cases hy
    · rwa [hu.get?_of_ne heq] at hy

theorem trans (h₁ : heap.Sheds freed heap') (h₂ : heap'.Sheds freed' heap'') : heap.Sheds (freed ++ freed') heap'' where
  nodup := by
    refine List.nodup_append.mpr ⟨h₁.nodup, h₂.nodup, ?_⟩
    rintro w hw _ hw' rfl
    exact ((h₁.mem_iff w).mp hw).2.2 ((h₂.mem_iff w).mp hw').2.1
  mem_iff w := by
    rw [List.mem_append, h₁.mem_iff, h₂.mem_iff]
    constructor
    · rintro (⟨hw, hlive, hdead⟩ | ⟨hw, hlive, hdead⟩)
      · exact ⟨hw, hlive, fun hlive' => hdead (h₂.restriction.live hlive')⟩
      · exact ⟨hw, h₁.restriction.live hlive, hdead⟩
    · rintro ⟨hw, hlive, hdead⟩
      by_cases hlive' : heap'.Live w
      · exact .inr ⟨hw, hlive', hdead⟩
      · exact .inl ⟨hw, hlive, hlive'⟩
  queue_eq k := by rw [h₂.queue_eq, h₁.queue_eq, List.filterMap_append, List.append_assoc]
  occurrences_eq w := by
    -- What is given up later was live in between, and held there what it held at first.
    have hchildren : freed'.flatMap heap'.children = freed'.flatMap heap.children :=
      List.flatMap_congr fun u hu => (h₁.restriction.children_of_live ((h₂.mem_iff u).mp hu).2.1).symm
    have hfirst := h₁.occurrences_eq w
    have hsecond := h₂.occurrences_eq w
    rw [hchildren] at hsecond
    rw [List.flatMap_append, List.count_append]
    omega
  restriction k h x hget := h₁.restriction k h x (h₂.restriction k h x hget)

end Sheds

theorem releaseOne_sheds {held : List Value} (hw : heap.WellFormed) (hrun : releaseOne v heap = .ok held heap') :
    ∃ freed, heap.Sheds freed heap' ∧ heap'.WellFormed := by
  rcases releaseOne_cases hw v with ⟨-, hrun'⟩ | ⟨k, h, x, heap₁, rfl, hv, hslot, hrun', hu, hw', -⟩ |
    ⟨k, h, x, count, heap₁, rfl, hv, hslot, hrun', hu, hw', -⟩ | ⟨k, h, x, -, -, -, hrun'⟩ | ⟨k, h, -, -, hrun'⟩
  · cases hrun.symm.trans hrun'
    exact ⟨[], .of_sameObjects (fun _ _ => rfl) (fun _ => rfl) fun _ => rfl, hw⟩
  · cases hrun.symm.trans hrun'
    exact ⟨_, .of_freed hv (get?_of_slot? hslot) hu (queue_of_last hw hv hslot hrun), hw'⟩
  · cases hrun.symm.trans hrun'
    have hget := get?_of_slot? hslot
    refine ⟨[], .of_sameObjects (hu.sameObjects hget) (queue_of_more hw hv hslot hrun) fun w => ?_, hw'⟩
    have hocc := hu.occurrences_eq w
    rw [hget] at hocc
    exact Nat.add_right_cancel hocc
  · cases hrun.symm.trans hrun'
  · cases hrun.symm.trans hrun'

theorem releaseAll_sheds {pending : List Value} (hw : heap.WellFormed) (hrun : releaseAll pending heap = .ok () heap') :
    ∃ freed, heap.Sheds freed heap' := by
  induction pending, heap using releaseAll.induct with
  | case1 heap =>
    rw [releaseAll] at hrun
    cases hrun
    exact ⟨[], .of_sameObjects (fun _ _ => rfl) (fun _ => rfl) fun _ => rfl⟩
  | case2 heap v rest held heap₁ hstep ih =>
    rw [releaseAll_of_ok hstep] at hrun
    obtain ⟨freed, hsheds, hw₁⟩ := releaseOne_sheds hw hstep
    obtain ⟨freed', hsheds'⟩ := ih hw₁ hrun
    exact ⟨freed ++ freed', hsheds.trans hsheds'⟩
  | case3 heap v rest e heap₁ hstep =>
    rw [releaseAll_of_error hstep] at hrun
    cases hrun

/-! ## Why it was given up -/

theorem Balanced.live_iff_referred (hb : heap.Balanced roots) (hw : w.Counted) :
    heap.Live w ↔ w ∈ roots ∨ ∃ u, heap.Live u ∧ w ∈ heap.children u := by
  constructor
  · intro hlive
    have hpos := (hb.live_iff w hw).mp hlive
    rw [hb.counted_eq w hw] at hpos
    by_cases hroot : w ∈ roots
    · exact .inl hroot
    · rw [Multiset.count_eq_zero_of_notMem hroot, Nat.zero_add] at hpos
      obtain ⟨u, hmem⟩ := exists_mem_children hb.wellFormed hw hpos
      obtain ⟨k, h, x, rfl, -, hget, -⟩ := mem_children_iff.mp hmem
      exact .inr ⟨_, live_of_get? hget, hmem⟩
  · rintro (hroot | ⟨u, -, hmem⟩)
    · exact hb.live w (.inl hroot)
    · exact hb.live w (.inr (occurrences_pos_of_mem_children hb.wellFormed hmem))

/-- The slots that a release frees are those that were live and that neither a root nor an object left over refers to.
-/
theorem Sheds.mem_iff_unreferred {freed : List Value} (hsheds : heap.Sheds freed heap') (hb : heap'.Balanced roots)
    (hw : w.Counted) : w ∈ freed ↔ heap.Live w ∧ w ∉ roots ∧ ∀ u, heap'.Live u → w ∉ heap.children u := by
  rw [hsheds.mem_iff, hb.live_iff_referred hw, not_or, not_exists]
  simp only [not_and]
  constructor
  · rintro ⟨-, hlive, hroot, hheld⟩
    refine ⟨hlive, hroot, fun u hu => ?_⟩
    rw [hsheds.restriction.children_of_live hu]
    exact hheld u hu
  · rintro ⟨hlive, hroot, hheld⟩
    refine ⟨hw, hlive, hroot, fun u hu => ?_⟩
    rw [← hsheds.restriction.children_of_live hu]
    exact hheld u hu

/-- Under exact counts, a slot counts less by its occurrences in the freed objects, and that of the released value by
one more. -/
theorem Sheds.counted_eq {freed : List Value} (hsheds : heap.Sheds freed heap') (hb : heap.Balanced (v ::ₘ roots))
    (hb' : heap'.Balanced roots) (hw : w.Counted) :
    heap.counted w = heap'.counted w + (freed.flatMap heap.children).count w + if w = v then 1 else 0 := by
  rw [hb.counted_eq w hw, hb'.counted_eq w hw, Multiset.count_cons, hsheds.occurrences_eq w]
  omega

theorem counted_of_not_counted (hw : heap.WellFormed) (hw' : heap'.WellFormed) (hv : ¬ v.Counted) :
    heap'.counted v = heap.counted v := by
  cases v with
  | error | boolean | integer | float | type | opcode => rfl
  | ref k h =>
    have hpins : k.pins h = true := by simpa [Value.Counted] using hv
    rw [counted_of_pins hw hpins, counted_of_pins hw' hpins]

end Heap

variable {heap : Heap} {roots : Multiset Value} {v : Value}

/-- **The cascade of a release.** In a balanced heap, `release` of a root never fails and leaves the heap balanced for
the other roots. It frees the objects that neither another root nor an object left over refers to, each once, to the
ends of the queues. What is left keeps its contents, and counts less by the references in what was freed and, for the
root itself, by one. In an acyclic heap, what is left is what the other roots reach. -/
theorem release_cascade (hb : heap.Balanced roots) (hv : v ∈ roots) :
    ∃ freed heap', Heap.release v heap = .ok () heap' ∧ heap'.Balanced (roots.erase v) ∧ heap.Sheds freed heap' ∧
      (∀ w, w.Counted →
        (w ∈ freed ↔ heap.Live w ∧ w ∉ roots.erase v ∧ ∀ u, heap'.Live u → w ∉ heap.children u)) ∧
      (∀ w, w.Counted →
        heap.counted w = heap'.counted w + (freed.flatMap heap.children).count w + if w = v then 1 else 0) ∧
      (∀ w, ¬ w.Counted → heap'.counted w = heap.counted w) ∧
      (heap.Acyclic → ∀ w, w.Counted → (heap'.Live w ↔ heap.Reachable { u | u ∈ roots.erase v } w)) := by
  rw [← Multiset.cons_erase hv] at hb
  obtain ⟨heap', hrun, ha', hkeeps, hshrinks⟩ := (Heap.balanced_iff.mp hb).release
  obtain ⟨freed, hsheds⟩ := Heap.releaseAll_sheds hb.wellFormed hrun
  have hb' := Heap.balanced_iff.mpr ha'
  refine ⟨freed, heap', hrun, hb', hsheds, fun w hw => hsheds.mem_iff_unreferred hb' hw,
    fun w hw => hsheds.counted_eq hb hb' hw, fun w hw => Heap.counted_of_not_counted hb.wellFormed hb'.wellFormed hw,
    fun hacyclic w hw => ?_⟩
  rw [ha'.live_iff_reachable (hshrinks.acyclic hacyclic) hw, hkeeps.reachable_iff]

/-- A variable holds a tuple, which stands in a tuple with a second one that holds it too. Once the outermost is
released, so is the second, and the first counts one reference instead of three. -/
theorem release_cascade_shared :
    let code : List Instruction := [.loadInteger 7, .newTuple 1, .assignVariable 0 .immutable, .newTuple 1,
      .readVariable 0, .newTuple 2]
    let m := endState (Machine.evaluate ⟨⟨0⟩, code⟩ { scope := ⟨#[{ name := "inner" }]⟩ })
    let inner := Value.ref .tuple ⟨1⟩
    let second := Value.ref .tuple ⟨2⟩
    let outer := Value.ref .tuple ⟨3⟩
    m.heap.children outer = [second, inner] ∧ m.heap.counted inner = 3 ∧
      ∃ freed heap', Heap.release outer m.heap = .ok () heap' ∧ heap'.Balanced {inner} ∧ m.heap.Sheds freed heap' ∧
        heap'.counted inner = 1 ∧ (heap'.store .tuple).free.toList = [⟨3⟩, ⟨2⟩] := by
  intro code m inner second outer
  have hrun : Machine.evaluate ⟨⟨0⟩, code⟩ _ = .ok outer m := eq_ok_of_outcome (by decide +kernel)
  have hnew : Machine.Balanced { scope := ⟨#[{ name := "inner" }]⟩ } 0 := Heap.balanced_empty
  have ha := ((Machine.evaluate_ends_free (Machine.balanced_iff.mp hnew) _).of_ok hrun).1
  have hroots : m.roots {outer} = {outer, inner} := by decide +kernel
  have hb : m.heap.Balanced {outer, inner} := hroots ▸ Machine.balanced_iff.mpr ha
  obtain ⟨freed, heap', hrelease, hb', hsheds, -⟩ := release_cascade hb (Multiset.mem_cons_self outer {inner})
  have hheap' : heap' = endState (Heap.release outer m.heap) := by rw [hrelease]; rfl
  refine ⟨by decide +kernel, by decide +kernel, freed, heap', hrelease, hb', hsheds, ?_, ?_⟩
  · rw [hheap']
    decide +kernel
  · rw [hheap']
    decide +kernel

end RefMachine
