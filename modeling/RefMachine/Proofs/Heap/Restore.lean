import RefMachine.Proofs.Heap.Objects
import RefMachine.Proofs.RecursiveRelease

/-!
# Making objects and giving them up again

An object that is made, referred to once and given up leaves the heap as it was, but for the order in which free slots
are filled: every slot has the contents and the count that it had, and the same texts are shared (`Alike`). `Owes heap
due origin` says that releasing what is due leads from a heap back to its origin in this sense, also if other objects
came and went in between. A new object is due for what it holds (`Owes.keep`), and so is a text that was looked up or
made to be shared (`owes_intern`).

None of this fails as long as there is room, that is a slot to fill in each store and no count at its limit (`HasRoom`).
-/

namespace RefMachine

namespace Store

variable {α : Type} {s : Store α} {sentinel : Option α}

theorem get?_ne_none_of_full (hs : s.WellFormed sentinel) {x : α} (hfull : insert x s = .error .full s) (h : Handle) :
    s.get? h ≠ none := by
  intro hnone
  unfold insert at hfull
  split at hfull
  · cases hfull
  · rename_i hpop
    split_ifs at hfull with hsize
    have hempty := Fifo.pop?_eq_none_iff.mp hpop
    have hlt : h.index < s.slots.size := Nat.lt_of_lt_of_le h.index_lt (Nat.le_of_not_lt hsize)
    obtain ⟨⟨content, count⟩, hslot⟩ : ∃ slot, s.slot? h = some slot := ⟨_, Array.getElem?_eq_getElem hlt⟩
    rw [get?_of_slot? hslot] at hnone
    change content = none at hnone
    subst hnone
    rw [hs.released h count hslot] at hslot
    have hmem := (hs.mem_free h).mpr hslot
    rw [hempty] at hmem
    exact absurd hmem List.not_mem_nil

end Store

namespace Heap

variable {heap heap₁ heap₂ heap₃ origin : Heap} {k : Kind} {h : Handle} {v : Value} {due : List Value}

/-- There is a slot to fill in every store, and no count is at its limit. -/
structure HasRoom (heap : Heap) : Prop where
  slot : ∀ k, ∃ h, heap.get? k h = none
  count : ∀ v, heap.counted v < Store.maxCount

theorem hasRoom_empty : empty.HasRoom where
  slot k := ⟨⟨1⟩, get?_empty (by cases k <;> rfl)⟩
  count v := by
    cases v with
    | error | boolean | integer | float | type | opcode =>
      change 0 < Store.maxCount
      decide
    | ref k h =>
      cases hpins : k.pins h with
      | true =>
        rw [counted_of_pins wellFormed_empty hpins]
        decide
      | false =>
        have hzero : empty.counted (.ref k h) = 0 := (wellFormed_empty.store k).count_of_released (get?_empty hpins)
        rw [hzero]
        decide

/-! ## Heaps that differ in no slot -/

/-- The slots have the same contents and counts, and the same texts are shared. -/
structure Alike (heap heap' : Heap) : Prop where
  objects : heap.SameObjects heap'
  counted_eq : ∀ v, heap'.counted v = heap.counted v
  interned_eq : heap'.interned = heap.interned

namespace Alike

theorem refl (heap : Heap) : heap.Alike heap :=
  ⟨fun _ _ => rfl, fun _ => rfl, rfl⟩

theorem trans (h₁ : heap.Alike heap₁) (h₂ : heap₁.Alike heap₂) : heap.Alike heap₂ where
  objects k h := (h₂.objects k h).trans (h₁.objects k h)
  counted_eq v := (h₂.counted_eq v).trans (h₁.counted_eq v)
  interned_eq := h₂.interned_eq.trans h₁.interned_eq

theorem hasRoom (halike : heap.Alike heap₁) (hroom : heap.HasRoom) : heap₁.HasRoom where
  slot k := by
    obtain ⟨h, hget⟩ := hroom.slot k
    exact ⟨h, (halike.objects k h).trans hget⟩
  count v := by
    rw [halike.counted_eq]
    exact hroom.count v

theorem of_updates {new new' : Slot k.Content} (hu : heap.Update heap₁ k h new) (halike : heap₁.Alike heap₂)
    (hu' : heap₂.Update heap₃ k h new') (hcontent : new'.content = heap.get? k h)
    (hcount : new'.count = heap.counted (.ref k h)) (htable : heap₃.interned = heap.interned) : heap.Alike heap₃ where
  objects k' h' := by
    by_cases heq : Value.ref k' h' = .ref k h
    · cases heq
      rw [hu'.get?_self, hcontent]
    · rw [hu'.get?_of_ne heq, halike.objects, hu.get?_of_ne heq]
  counted_eq v := by
    by_cases heq : v = .ref k h
    · rw [heq, hu'.counted_self, hcount]
    · rw [hu'.counted_of_ne heq, halike.counted_eq, hu.counted_of_ne heq]
  interned_eq := htable

end Alike

theorem Update.trans {new new' : Slot k.Content} (hu : heap.Update heap₁ k h new) (hu' : heap₁.Update heap₂ k h new') :
    heap.Update heap₂ k h new' where
  slot?_self := hu'.slot?_self
  slot?_of_ne k' h' hne := (hu'.slot?_of_ne k' h' hne).trans (hu.slot?_of_ne k' h' hne)
  weight_eq measure := by
    have hfirst := hu.weight_eq measure
    have hsecond := hu'.weight_eq measure
    rw [hu.get?_self] at hsecond
    omega

theorem slot?_of_get? {x : k.Content} (hget : heap.get? k h = some x) :
    heap.slot? k h = some ⟨some x, heap.counted (.ref k h)⟩ := by
  obtain ⟨count, hslot⟩ := Store.slot?_of_get? hget
  rw [counted_of_slot? hslot]
  exact hslot

/-! ## Values without a count -/

theorem retain_of_not_counted (hw : heap.WellFormed) (hv : ¬ v.Counted) : retain v heap = .ok () heap := by
  cases v with
  | ref k h =>
    have hpins : (heap.store k).pins h = true := (hw.pins_eq k h).trans (Bool.of_not_eq_false hv)
    rw [retain, onStore_eq]
    simp [Store.retain, hpins, locate]
  | error | boolean | integer | float | type | opcode => rfl

theorem releaseOne_of_not_counted (hw : heap.WellFormed) (hv : ¬ v.Counted) : releaseOne v heap = .ok [] heap := by
  cases v with
  | ref k h =>
    have hpins : (heap.store k).pins h = true := (hw.pins_eq k h).trans (Bool.of_not_eq_false hv)
    have hstore : onStore k (Store.release h) heap = .ok none heap := by
      rw [onStore_eq]
      simp [Store.release, hpins, locate]
    exact bind_apply_of_ok hstore _
  | error | boolean | integer | float | type | opcode => rfl

/-! ## With room, nothing fails -/

theorem insert_of_room (hw : heap.WellFormed) (hslot : ∃ h, heap.get? k h = none) (x : k.Content) :
    ∃ h heap₁, insert k x heap = .ok h heap₁ ∧ heap.get? k h = none ∧ heap.Update heap₁ k h ⟨some x, 0⟩ ∧
      heap₁.WellFormed ∧ heap₁.interned = heap.interned := by
  rcases insert_cases hw x with hmade | hfull
  · exact hmade
  · exfalso
    obtain ⟨h, hget⟩ := hslot
    refine Store.get?_ne_none_of_full (hw.store k) (x := x) ?_ h hget
    rw [insert, onStore_eq] at hfull
    rcases Store.insert_cases (hw.store k) x with ⟨h', s, hrun, -⟩ | hrun
    · rw [hrun] at hfull
      cases hfull
    · exact hrun

theorem retain_of_room {x : k.Content} (hw : heap.WellFormed) (hv : (Value.ref k h).Counted)
    (hget : heap.get? k h = some x) (hcount : heap.counted (.ref k h) < Store.maxCount) :
    ∃ heap₁, retain (.ref k h) heap = .ok () heap₁ ∧
      heap.Update heap₁ k h ⟨some x, heap.counted (.ref k h) + 1⟩ ∧ heap₁.WellFormed ∧
      heap₁.interned = heap.interned := by
  have hslot := slot?_of_get? hget
  have hrun : ∃ heap₁, retain (.ref k h) heap = .ok () heap₁ := by
    have hpins : (heap.store k).pins h = false := (hw.pins_eq k h).trans hv
    have hslot' : (heap.store k).slots[h.index]? = some ⟨some x, heap.counted (.ref k h)⟩ := hslot
    rw [retain, onStore_eq]
    simp [Store.retain, hpins, hslot', hcount, locate]
  obtain ⟨heap₁, hrun⟩ := hrun
  rcases retain_cases hw (.ref k h) with ⟨hnot, -⟩ |
    ⟨k', h', x', count, heap₂, heq, -, hslot', hrun', hu, hw', htable⟩ | ⟨_, _, -, -, hrun'⟩ | ⟨_, _, -, -, hrun'⟩
  · exact absurd hv hnot
  · cases heq
    rw [hslot] at hslot'
    cases hslot'
    exact ⟨heap₂, hrun', hu, hw', htable⟩
  · cases hrun.symm.trans hrun'
  · cases hrun.symm.trans hrun'

theorem keep_of_room (hw : heap.WellFormed) (hslot : ∃ h, heap.get? k h = none) (x : k.Content) :
    ∃ h heap₁ heap₂, insert k x heap = .ok h heap₁ ∧ retain (.ref k h) heap₁ = .ok () heap₂ ∧
      (Value.ref k h).Counted ∧ heap.get? k h = none ∧ heap.Update heap₂ k h ⟨some x, 1⟩ ∧ heap₂.WellFormed ∧
      heap₂.interned = heap.interned := by
  obtain ⟨h, heap₁, hinsert, hget, hu, hw₁, htable⟩ := insert_of_room hw hslot x
  have hv : (Value.ref k h).Counted := (hw.pins_eq k h).symm.trans ((hw.store k).pins_eq_false hget)
  have hzero : heap₁.counted (.ref k h) = 0 := hu.counted_self
  obtain ⟨heap₂, hretain, hu', hw₂, htable'⟩ := retain_of_room hw₁ hv hu.get?_self (hzero ▸ by decide)
  rw [hzero] at hu'
  exact ⟨h, heap₁, heap₂, hinsert, hretain, hv, hget, hu.trans hu', hw₂, htable'.trans htable⟩

theorem interned_forgetContent_of_ne {x : k.Content}
    (hne : ∀ entry ∈ heap.interned, Value.ref .string entry.2 ≠ .ref k h) :
    (heap.forgetContent k h x).interned = heap.interned := by
  cases k with
  | string =>
    have hlookup : heap.interned.lookup (contentHash x) ≠ some h := fun heq => hne _ (mem_of_lookup heq) rfl
    rw [forgetContent, forget, if_neg hlookup]
  | tuple | list | expression => rfl

theorem releaseOne_of_last {x : k.Content} (hw : heap.WellFormed) (hv : (Value.ref k h).Counted)
    (hget : heap.get? k h = some x) (hcount : heap.counted (.ref k h) = 1) :
    ∃ heap₁, releaseOne (.ref k h) heap = .ok (k.references x) heap₁ ∧ heap.Update heap₁ k h ⟨none, 0⟩ ∧
      heap₁.WellFormed ∧ heap₁.interned = (heap.forgetContent k h x).interned := by
  have hslot := slot?_of_get? hget
  rw [hcount] at hslot
  rcases releaseOne_cases hw (.ref k h) with ⟨hnot, -⟩ | ⟨k', h', x', heap₁, heq, -, hslot', hrun, hu, hw', htable⟩ |
    ⟨k', h', x', count, heap₁, heq, -, hslot', -⟩ | ⟨k', h', x', heq, -, hslot', -⟩ | ⟨k', h', heq, hnone, -⟩
  · exact absurd hv hnot
  · cases heq
    cases hslot.symm.trans hslot'
    exact ⟨heap₁, hrun, hu, hw', htable⟩
  · cases heq
    cases hslot.symm.trans hslot'
  · cases heq
    cases hslot.symm.trans hslot'
  · cases heq
    cases hget.symm.trans hnone

theorem releaseOne_of_more {x : k.Content} {count : Nat} (hw : heap.WellFormed) (hv : (Value.ref k h).Counted)
    (hget : heap.get? k h = some x) (hcount : heap.counted (.ref k h) = count + 2) :
    ∃ heap₁, releaseOne (.ref k h) heap = .ok [] heap₁ ∧ heap.Update heap₁ k h ⟨some x, count + 1⟩ ∧
      heap₁.WellFormed ∧ heap₁.interned = heap.interned := by
  have hslot := slot?_of_get? hget
  rw [hcount] at hslot
  rcases releaseOne_cases hw (.ref k h) with ⟨hnot, -⟩ | ⟨k', h', x', heap₁, heq, -, hslot', -⟩ |
    ⟨k', h', x', count', heap₁, heq, -, hslot', hrun, hu, hw', htable⟩ | ⟨k', h', x', heq, -, hslot', -⟩ |
    ⟨k', h', heq, hnone, -⟩
  · exact absurd hv hnot
  · cases heq
    cases hslot.symm.trans hslot'
  · cases heq
    cases hslot.symm.trans hslot'
    exact ⟨heap₁, hrun, hu, hw', htable⟩
  · cases heq
    cases hslot.symm.trans hslot'
  · cases heq
    cases hget.symm.trans hnone

/-! ## What is due -/

/-- Releasing what is due never fails and leads back to the origin, from the heap and from any that is alike. -/
def Owes (heap : Heap) (due : List Value) (origin : Heap) : Prop :=
  ∀ heap₁, heap.Alike heap₁ → heap₁.WellFormed →
    ∃ heap₂, releaseAll due heap₁ = .ok () heap₂ ∧ origin.Alike heap₂ ∧ heap₂.WellFormed

theorem owes_nil (halike : origin.Alike heap) : heap.Owes [] origin := by
  intro heap₁ halike₁ hw₁
  exact ⟨heap₁, by rw [releaseAll], halike.trans halike₁, hw₁⟩

theorem Owes.append (howes : heap.Owes due origin) (hv : v.handle? = none) : heap.Owes (due ++ [v]) origin := by
  intro heap₁ halike hw₁
  obtain ⟨heap₂, hrun, halike₂, hw₂⟩ := howes heap₁ halike hw₁
  refine ⟨heap₂, ?_, halike₂, hw₂⟩
  have hone : releaseOne v heap₂ = .ok [] heap₂ := by
    cases v with
    | error | boolean | integer | float | type | opcode => rfl
    | ref k h => cases hv
  rw [releaseAll_append_of_ok hrun, releaseAll_of_ok hone, List.append_nil, releaseAll]

theorem Owes.release (howes : heap.Owes [v] origin) (hw : heap.WellFormed) :
    ∃ heap₁, Heap.release v heap = .ok () heap₁ ∧ origin.Alike heap₁ ∧ heap₁.WellFormed :=
  howes heap (.refl heap) hw

/-- What is due from `heap` to `heap₁` and what is due from there to `origin` may be released in one go. -/
theorem Owes.trans {due' : List Value} (howes : heap.Owes due heap₁) (howes' : heap₁.Owes due' origin) :
    heap.Owes (due ++ due') origin := by
  intro heap₂ halike hw₂
  obtain ⟨heap₃, hrun, halike₃, hw₃⟩ := howes heap₂ halike hw₂
  rw [releaseAll_append_of_ok hrun]
  exact howes' heap₃ halike₃ hw₃

theorem Owes.cons (howes : heap.Owes due origin) (hv : ¬ v.Counted) : heap.Owes (v :: due) origin := by
  intro heap₁ halike hw₁
  rw [releaseAll_of_ok (releaseOne_of_not_counted hw₁ hv), List.nil_append]
  exact howes heap₁ halike hw₁

theorem Owes.of_update {x : k.Content} (howes : heap.Owes (k.references x) origin) (hw : heap.WellFormed)
    (hv : (Value.ref k h).Counted) (hnone : heap.get? k h = none) (hu : heap.Update heap₁ k h ⟨some x, 1⟩)
    (htable : heap₁.interned = heap.interned) : heap₁.Owes [.ref k h] origin := by
  intro heap₂ halike hw₂
  have hget : heap₂.get? k h = some x := (halike.objects k h).trans hu.get?_self
  have hcount : heap₂.counted (.ref k h) = 1 := (halike.counted_eq _).trans hu.counted_self
  obtain ⟨heap₃, hrun, hu', hw₃, htable'⟩ := releaseOne_of_last hw₂ hv hget hcount
  have htable₂ : heap₂.interned = heap.interned := halike.interned_eq.trans htable
  -- The texts in the table are live, so the new slot is none of theirs.
  have hfresh : ∀ entry ∈ heap₂.interned, Value.ref .string entry.2 ≠ .ref k h := by
    rw [htable₂]
    intro entry hentry heq
    obtain ⟨text, htext, -⟩ := hw.interned entry hentry
    cases heq
    rw [hnone] at htext
    cases htext
  rw [interned_forgetContent_of_ne hfresh, htable₂] at htable'
  have hzero : heap.counted (.ref k h) = 0 := (hw.store k).count_of_released hnone
  have hback : heap.Alike heap₃ := .of_updates hu halike hu' hnone.symm hzero.symm htable'
  rw [releaseAll_of_ok hrun, List.append_nil]
  exact howes heap₃ hback hw₃

theorem Owes.keep {x : k.Content} (howes : heap.Owes (k.references x) origin) (hw : heap.WellFormed)
    (hslot : ∃ h, heap.get? k h = none) :
    ∃ h heap₁ heap₂, insert k x heap = .ok h heap₁ ∧ retain (.ref k h) heap₁ = .ok () heap₂ ∧ heap₂.WellFormed ∧
      heap₂.get? k h = some x ∧ heap₂.Owes [.ref k h] origin := by
  obtain ⟨h, heap₁, heap₂, hinsert, hretain, hv, hnone, hu, hw₂, htable⟩ := keep_of_room hw hslot x
  exact ⟨h, heap₁, heap₂, hinsert, hretain, hw₂, hu.get?_self, howes.of_update hw hv hnone hu htable⟩

/-! ## Shared texts -/

/-- The text that a shared text is found to be: the one in the slot shared for its hash, if there is one. -/
def sharedText (heap : Heap) (text : String) : String :=
  ((heap.interned.lookup (contentHash text)).bind fun h => heap.get? .string h).getD text

theorem Alike.sharedText_eq (halike : heap.Alike heap₁) (text : String) :
    heap₁.sharedText text = heap.sharedText text := by
  unfold sharedText
  rw [halike.interned_eq]
  congr 2
  funext h
  exact halike.objects .string h

/-- The slot of a text gets one more reference. It was shared for the hash already, or it is new and shared now. -/
structure Interns (heap : Heap) (text : String) (h : Handle) (heap₁ : Heap) : Prop where
  wellFormed : heap₁.WellFormed
  update : heap.Update heap₁ .string h ⟨some (heap.sharedText text), heap.counted (.ref .string h) + 1⟩
  shared : heap.get? .string h = some (heap.sharedText text) ∧ heap₁.interned = heap.interned ∨
    heap.get? .string h = none ∧ heap.interned.lookup (contentHash text) = none ∧ heap.sharedText text = text ∧
      heap₁.interned = (contentHash text, h) :: heap.interned

theorem intern_of_room (hw : heap.WellFormed) (hroom : heap.HasRoom) (text : String) :
    ∃ h heap₁ heap₂, internString text heap = .ok h heap₁ ∧ retain (.ref .string h) heap₁ = .ok () heap₂ ∧
      heap.Interns text h heap₂ := by
  cases hlookup : heap.interned.lookup (contentHash text) with
  | some h =>
    obtain ⟨text', hget, -⟩ := hw.interned _ (mem_of_lookup hlookup)
    have htext : heap.sharedText text = text' := by simp [sharedText, hlookup, hget]
    have hrun : internString text heap = .ok h heap := by
      rw [internString, get_bind_apply, hlookup]
      rfl
    obtain ⟨heap₂, hretain, hu, hw₂, htable⟩ := retain_of_room hw (k := .string) rfl hget (hroom.count _)
    exact ⟨h, heap, heap₂, hrun, hretain, hw₂, htext ▸ hu, .inl ⟨htext ▸ hget, htable⟩⟩
  | none =>
    have htext : heap.sharedText text = text := by simp [sharedText, hlookup]
    rcases internString_cases hw text with ⟨h, hshared, -⟩ | ⟨h, heap₁, hrun, hnone, hu, hw₁, htable⟩ | hfull
    · cases hlookup.symm.trans hshared
    · have hzero : heap.counted (.ref .string h) = 0 := (hw.store .string).count_of_released hnone
      have hzero' : heap₁.counted (.ref .string h) = 0 := hu.counted_self
      obtain ⟨heap₂, hretain, hu₂, hw₂, htable₂⟩ :=
        retain_of_room hw₁ (k := .string) rfl hu.get?_self (hzero' ▸ by decide)
      refine ⟨h, heap₁, heap₂, hrun, hretain, hw₂, ?_, .inr ⟨hnone, hlookup, htext, htable₂.trans htable⟩⟩
      rw [htext, hzero, ← hzero']
      exact hu.trans hu₂
    · -- The store is not full.
      obtain ⟨h, heap₁, hinsert, -⟩ := insert_of_room hw (hroom.slot .string) text
      have hnew : newString text heap = .ok h heap₁ := hinsert
      rw [internString, get_bind_apply, hlookup] at hfull
      change (newString text >>= _) heap = _ at hfull
      rw [bind_apply_of_ok hnew] at hfull
      cases hfull

theorem interned_forget {text : String} (hfresh : heap.interned.lookup (contentHash text) = none)
    (htable : heap₁.interned = (contentHash text, h) :: heap.interned) :
    (heap₁.forgetContent .string h text).interned = heap.interned := by
  have hlookup : heap₁.interned.lookup (contentHash text) = some h := by
    rw [htable, List.lookup_cons_self]
  have hothers : ∀ entry ∈ heap.interned, (entry.1 != contentHash text) = true := by
    intro entry hentry
    have hne := List.lookup_eq_none_iff.mp hfresh entry hentry
    rw [bne_iff_ne]
    exact (bne_iff_ne.mp hne).symm
  rw [forgetContent, forget, if_pos hlookup]
  change heap₁.interned.filter _ = heap.interned
  rw [htable, List.filter_cons_of_neg (by simp), List.filter_eq_self.mpr hothers]

/-- Releasing the reference to a text that was interned gives back the heap before. -/
theorem owes_intern {text : String} (hw : heap.WellFormed) (hpos : ∀ v, v.Counted → heap.Live v → 0 < heap.counted v)
    (hinterns : heap.Interns text h heap₁) : heap₁.Owes [.ref .string h] heap := by
  intro heap₂ halike hw₂
  have hu := hinterns.update
  have hv : (Value.ref .string h).Counted := rfl
  have hget : heap₂.get? .string h = some (heap.sharedText text) := (halike.objects .string h).trans hu.get?_self
  have hcount : heap₂.counted (.ref .string h) = heap.counted (.ref .string h) + 1 :=
    (halike.counted_eq _).trans hu.counted_self
  rcases hinterns.shared with ⟨hshared, htable⟩ | ⟨hnone, hfresh, htext, htable⟩
  · -- The slot was referred to before, so it stays.
    obtain ⟨count, hold⟩ : ∃ count, heap.counted (.ref .string h) = count + 1 :=
      Nat.exists_eq_add_one.mpr (hpos _ hv (live_of_get? hshared))
    rw [hold] at hcount
    obtain ⟨heap₃, hrun, hu', hw₃, htable'⟩ := releaseOne_of_more hw₂ hv hget hcount
    refine ⟨heap₃, ?_, .of_updates hu halike hu' hshared.symm hold.symm ?_, hw₃⟩
    · rw [releaseAll_of_ok hrun, List.append_nil, releaseAll]
    · rw [htable', halike.interned_eq, htable]
  · -- The slot is new, so it goes, and its entry with it.
    have hzero : heap.counted (.ref .string h) = 0 := (hw.store .string).count_of_released hnone
    rw [hzero] at hcount
    obtain ⟨heap₃, hrun, hu', hw₃, htable'⟩ := releaseOne_of_last hw₂ hv hget hcount
    refine ⟨heap₃, ?_, .of_updates hu halike hu' hnone.symm hzero.symm ?_, hw₃⟩
    · rw [releaseAll_of_ok hrun, List.append_nil]
      change releaseAll [] heap₃ = _
      rw [releaseAll]
    · rw [htable', htext]
      exact interned_forget hfresh (halike.interned_eq.trans htable)

end Heap

end RefMachine
