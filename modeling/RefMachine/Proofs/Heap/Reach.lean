import RefMachine.Proofs.Heap.Slots
import Mathlib.Data.Fintype.Card
import Mathlib.Data.Fintype.Prod
import Mathlib.Data.Set.Basic
import Mathlib.Logic.Relation

/-!
# What a heap holds and what can be reached in it

`children` are the values that an object holds, and `occurrences` counts how often a value is held by any object. Along
`children` a value reaches others; a heap is acyclic when no value reaches itself by one step or more, and since there
are finitely many values, this makes the relation well founded.

`Keeps heap heap' held` says that everything that the held values reach has the same contents in both heaps. It is
transitive for the same held values (`Keeps.trans`), because what is reached is then the same in both.
-/

namespace RefMachine

namespace Value

theorem eq_of_payload_eq {v w : Value} (hty : v.ty = w.ty) (hpayload : v.payload = w.payload) : v = w := by
  cases v <;> cases w <;> simp only [ty, reduceCtorEq] at hty
  case error.error => rfl
  case boolean.boolean a b => cases a <;> cases b <;> first | rfl | exact absurd hpayload (by decide)
  case integer.integer a b => exact congrArg (fun bits => integer ⟨bits⟩) hpayload
  case float.float a b => exact congrArg float hpayload
  case type.type a b => exact congrArg (fun bits => type ⟨bits⟩) (UInt32.toUInt64_inj.mp hpayload)
  case opcode.opcode a b =>
    have hcode : a.code = b.code := UInt16.toUInt64_inj.mp hpayload
    have hsome := Opcode.ofCode?_code a
    rw [hcode, Opcode.ofCode?_code] at hsome
    exact congrArg opcode (Option.some.inj hsome).symm
  case ref.ref k a k' b =>
    have hhandle : a.raw = b.raw := UInt32.toUInt64_inj.mp hpayload
    cases k <;> cases k' <;> simp only [Kind.ty, reduceCtorEq] at hty
    all_goals exact congrArg (fun raw => ref _ ⟨raw⟩) hhandle
  all_goals cases ‹Kind› <;> simp only [Kind.ty, reduceCtorEq] at hty

instance : Fintype Ty := Fintype.ofList Ty.all fun t => by cases t <;> decide

instance : Finite Value := by
  refine Finite.of_injective (fun v : Value => (v.ty, v.payload.toFin)) fun v w heq => ?_
  rw [Prod.mk.injEq] at heq
  exact eq_of_payload_eq heq.1 (UInt64.toFin_inj.mp heq.2)

end Value

namespace Store

theorem weight_pos_iff {α : Type} {s : Store α} {sentinel : Option α} (hs : s.WellFormed sentinel)
    (measure : α → Nat) : 0 < s.weight measure ↔ ∃ h x, s.get? h = some x ∧ 0 < measure x := by
  rw [weight_eq_sum, List.sum_pos_iff_exists_pos_nat]
  constructor
  · rintro ⟨n, hmem, hpos⟩
    obtain ⟨⟨content, count⟩, hslot, rfl⟩ := List.mem_map.mp hmem
    rcases content with _ | x
    · exact absurd hpos (Nat.lt_irrefl 0)
    · obtain ⟨i, hi, hget⟩ := List.mem_iff_getElem.mp hslot
      obtain ⟨h, rfl⟩ := hs.exists_handle hi
      have hslot : s.slot? h = some ⟨some x, count⟩ := by
        rw [slot?, ← Array.getElem?_toList, List.getElem?_eq_getElem hi, hget]
      exact ⟨h, x, get?_of_slot? hslot, hpos⟩
  · rintro ⟨h, x, hget, hpos⟩
    obtain ⟨count, hslot⟩ := slot?_of_get? hget
    refine ⟨measure x, List.mem_map.mpr ⟨⟨some x, count⟩, ?_, rfl⟩, hpos⟩
    exact Array.mem_toList_iff.mpr (Array.mem_of_getElem? hslot)

end Store

namespace Heap

variable {heap heap' heap'' : Heap} {k : Kind} {h : Handle} {v w : Value} {held held' : Set Value}

/-- The value is no handle, or there is an object at its handle. -/
def Live (heap : Heap) : Value → Prop
  | .ref k h => (heap.get? k h).isSome
  | _ => True

/-- The references counted at the slot of a value. -/
def counted (heap : Heap) : Value → Nat
  | .ref k h => (heap.store k).count h
  | _ => 0

/-- How often a value stands in the objects of a heap. The pinned cell holds no counted value. -/
def occurrences (heap : Heap) (v : Value) : Nat :=
  heap.weight fun k x => (k.references x).count v

/-- The values that the object of a handle holds. The pinned objects are taken to hold nothing. -/
def children (heap : Heap) : Value → List Value
  | .ref k h => if k.pins h then [] else ((heap.get? k h).map k.references).getD []
  | _ => []

theorem weight_pos_iff (measure : (k : Kind) → k.Content → Nat) :
    0 < heap.weight measure ↔ ∃ k, 0 < (heap.store k).weight (measure k) := by
  unfold weight
  constructor
  · intro hpos
    by_contra hnone
    have hzero : ∀ k, (heap.store k).weight (measure k) = 0 :=
      fun k => Nat.eq_zero_of_not_pos fun hk => hnone ⟨k, hk⟩
    have hstrings := hzero .string
    have htuples := hzero .tuple
    have hlists := hzero .list
    have hexpressions := hzero .expression
    omega
  · rintro ⟨k, hk⟩
    cases k <;> omega

theorem occurrences_pos_iff (hw : heap.WellFormed) :
    0 < heap.occurrences v ↔ ∃ k h x, heap.get? k h = some x ∧ v ∈ k.references x := by
  rw [occurrences, weight_pos_iff]
  constructor
  · rintro ⟨k, hpos⟩
    obtain ⟨h, x, hget, hcount⟩ := (Store.weight_pos_iff (hw.store k) _).mp hpos
    exact ⟨k, h, x, hget, List.count_pos_iff.mp hcount⟩
  · rintro ⟨k, h, x, hget, hmem⟩
    exact ⟨k, (Store.weight_pos_iff (hw.store k) _).mpr ⟨h, x, hget, List.count_pos_iff.mpr hmem⟩⟩

theorem children_of_get? {x : k.Content} (hpins : k.pins h = false) (hget : heap.get? k h = some x) :
    heap.children (.ref k h) = k.references x := by
  simp [children, hpins, hget]

theorem mem_children_iff :
    w ∈ heap.children v ↔ ∃ k h x, v = .ref k h ∧ v.Counted ∧ heap.get? k h = some x ∧ w ∈ k.references x := by
  constructor
  · intro hmem
    cases v with
    | error | boolean | integer | float | type | opcode => simp [children] at hmem
    | ref k h =>
      cases hpins : k.pins h with
      | true => simp [children, hpins] at hmem
      | false =>
        cases hget : heap.get? k h with
        | none => simp [children, hget] at hmem
        | some x =>
          rw [children_of_get? hpins hget] at hmem
          exact ⟨k, h, x, rfl, hpins, hget, hmem⟩
  · rintro ⟨k, h, x, rfl, hpins, hget, hmem⟩
    rwa [children_of_get? hpins hget]

theorem mem_children_of_tuple {items : List Value} (hw : heap.WellFormed) (hget : heap.get? .tuple h = some items)
    (hv : v ∈ items) : v ∈ heap.children (.ref .tuple h) := by
  refine mem_children_iff.mpr ⟨.tuple, h, items, rfl, ?_, hget, List.mem_reverse.mpr hv⟩
  -- The pinned tuple is empty, so one with an item is another.
  refine Bool.eq_false_iff.mpr fun hpins => ?_
  rw [hw.get?_of_pins hpins] at hget
  cases hget
  exact nomatch hv

theorem children_of_cell {head : Value} {tail : Handle} (hsentinel : h.isSentinel = false)
    (hget : heap.get? .list h = some ⟨head, tail⟩) : heap.children (.ref .list h) = [head, .ref .list tail] :=
  children_of_get? (by simp [Kind.pins, hsentinel]) hget

theorem occurrences_pos_of_mem_children (hw : heap.WellFormed) (hmem : w ∈ heap.children v) :
    0 < heap.occurrences w := by
  obtain ⟨k, h, x, -, -, hget, hmem⟩ := mem_children_iff.mp hmem
  exact (occurrences_pos_iff hw).mpr ⟨k, h, x, hget, hmem⟩

theorem exists_mem_children (hw : heap.WellFormed) (hv : v.Counted) (hpos : 0 < heap.occurrences v) :
    ∃ w, v ∈ heap.children w := by
  obtain ⟨k, h, x, hget, hmem⟩ := (occurrences_pos_iff hw).mp hpos
  cases hpins : k.pins h with
  | false => exact ⟨.ref k h, mem_children_iff.mpr ⟨k, h, x, rfl, hpins, hget, hmem⟩⟩
  | true =>
    exfalso
    rw [hw.get?_of_pins hpins] at hget
    cases k with
    | string | expression => exact nomatch hget
    | tuple =>
      cases hget
      simp [Kind.references] at hmem
    | list =>
      cases hget
      rcases List.mem_cons.mp hmem with rfl | hmem
      · exact hv
      · rw [List.mem_singleton.mp hmem] at hv
        exact nomatch hv

theorem live_of_not_counted (hw : heap.WellFormed) (hv : ¬ v.Counted) : heap.Live v := by
  cases v with
  | error | boolean | integer | float | type | opcode => trivial
  | ref k h =>
    by_contra hlive
    have hget : (heap.store k).get? h = none := by simpa [Live, get?] using hlive
    have hpins := (hw.store k).pins_eq_false hget
    exact hv ((hw.pins_eq k h).symm.trans hpins)

/-! ## Changing one slot -/

namespace Update

variable {new : Slot k.Content}

theorem live_of_ne (hu : heap.Update heap' k h new) (hne : v ≠ .ref k h) : heap'.Live v ↔ heap.Live v := by
  cases v with
  | error | boolean | integer | float | type | opcode => rfl
  | ref k' h' => rw [Live, hu.get?_of_ne hne, Live]

theorem live_self (hu : heap.Update heap' k h new) : heap'.Live (.ref k h) ↔ new.content.isSome := by
  rw [Live, hu.get?_self]

theorem counted_of_ne (hu : heap.Update heap' k h new) (hne : v ≠ .ref k h) : heap'.counted v = heap.counted v := by
  cases v with
  | error | boolean | integer | float | type | opcode => rfl
  | ref k' h' => exact congrArg (fun slot => (slot.map Slot.count).getD 0) (hu.slot?_of_ne k' h' hne)

theorem counted_self (hu : heap.Update heap' k h new) : heap'.counted (.ref k h) = new.count :=
  Store.count_of_slot? hu.slot?_self

theorem children_of_ne (hu : heap.Update heap' k h new) (hne : v ≠ .ref k h) : heap'.children v = heap.children v := by
  cases v with
  | error | boolean | integer | float | type | opcode => rfl
  | ref k' h' => rw [children, hu.get?_of_ne hne, children]

theorem occurrences_eq (hu : heap.Update heap' k h new) (v : Value) :
    heap'.occurrences v + ((heap.get? k h).map fun x => (k.references x).count v).getD 0 =
      heap.occurrences v + (new.content.map fun x => (k.references x).count v).getD 0 :=
  hu.weight_eq fun k x => (k.references x).count v

end Update

theorem counted_of_slot? {content : Option k.Content} {count : Nat} (hslot : heap.slot? k h = some ⟨content, count⟩) :
    heap.counted (.ref k h) = count :=
  Store.count_of_slot? hslot

theorem counted_of_pins (hw : heap.WellFormed) (hpins : k.pins h = true) :
    heap.counted (.ref k h) = Store.pinnedCount := by
  obtain ⟨hsome, hsentinel⟩ := Bool.and_eq_true_iff.mp hpins
  obtain ⟨x, hx⟩ := Option.isSome_iff_exists.mp hsome
  rw [Handle.isSentinel_iff.mp hsentinel]
  exact counted_of_slot? ((hw.store k).pinned x hx)

/-! ## Reachability -/

/-- The object of the one value holds the other, or an object that does, and so on. -/
def Reaches (heap : Heap) : Value → Value → Prop :=
  Relation.ReflTransGen fun v w => w ∈ heap.children v

def Reachable (heap : Heap) (held : Set Value) (w : Value) : Prop :=
  ∃ v ∈ held, heap.Reaches v w

/-- What the held values reach has the same contents in both heaps. -/
def Keeps (heap heap' : Heap) (held : Set Value) : Prop :=
  ∀ k h, heap.Reachable held (.ref k h) → heap'.get? k h = heap.get? k h

theorem Reachable.of_mem (hv : v ∈ held) : heap.Reachable held v :=
  ⟨v, hv, .refl⟩

theorem Reachable.child (hv : heap.Reachable held v) (hw : w ∈ heap.children v) : heap.Reachable held w := by
  obtain ⟨u, hu, hreach⟩ := hv
  exact ⟨u, hu, hreach.tail hw⟩

theorem Reachable.mono (hsub : held ⊆ held') (hv : heap.Reachable held v) : heap.Reachable held' v := by
  obtain ⟨u, hu, hreach⟩ := hv
  exact ⟨u, hsub hu, hreach⟩

theorem Reachable.cases (hw : heap.WellFormed) (hv : heap.Reachable held v) : v ∈ held ∨ 0 < heap.occurrences v := by
  obtain ⟨u, hu, hreach⟩ := hv
  rcases hreach.cases_tail with rfl | ⟨w, -, hmem⟩
  · exact .inl hu
  · exact .inr (occurrences_pos_of_mem_children hw hmem)

namespace Keeps

theorem refl (heap : Heap) (held : Set Value) : heap.Keeps heap held := fun _ _ _ => rfl

theorem mono (hkeeps : heap.Keeps heap' held') (hsub : held ⊆ held') : heap.Keeps heap' held :=
  fun k h hreach => hkeeps k h (hreach.mono hsub)

theorem children_eq (hkeeps : heap.Keeps heap' held) (hv : heap.Reachable held v) :
    heap'.children v = heap.children v := by
  cases v with
  | error | boolean | integer | float | type | opcode => rfl
  | ref k h => rw [children, hkeeps k h hv, children]

theorem reachable (hkeeps : heap.Keeps heap' held) (hv : heap.Reachable held v) : heap'.Reachable held v := by
  obtain ⟨u, hu, hreach⟩ := hv
  induction hreach with
  | refl => exact .of_mem hu
  | @tail b c hprior hmem ih =>
    refine ih.child ?_
    rwa [hkeeps.children_eq ⟨u, hu, hprior⟩]

theorem reachable_iff (hkeeps : heap.Keeps heap' held) : heap'.Reachable held v ↔ heap.Reachable held v := by
  refine ⟨?_, hkeeps.reachable⟩
  rintro ⟨u, hu, hreach⟩
  induction hreach with
  | refl => exact .of_mem hu
  | @tail b c _ hmem ih =>
    refine ih.child ?_
    rwa [← hkeeps.children_eq ih]

theorem trans (h₁ : heap.Keeps heap' held) (h₂ : heap'.Keeps heap'' held) : heap.Keeps heap'' held := by
  intro k h hreach
  rw [h₂ k h (h₁.reachable hreach), h₁ k h hreach]

end Keeps

theorem Extends.keeps (hext : heap.Extends heap') (hlive : ∀ v, heap.Reachable held v → heap.Live v) :
    heap.Keeps heap' held := by
  intro k h hreach
  obtain ⟨x, hget⟩ := Option.isSome_iff_exists.mp (hlive _ hreach)
  rw [hget, hext k h x hget]

/-- Both heaps hold the same objects in the same slots. -/
def SameObjects (heap heap' : Heap) : Prop :=
  ∀ k h, heap'.get? k h = heap.get? k h

theorem Update.sameObjects {x : k.Content} {count : Nat} (hu : heap.Update heap' k h ⟨some x, count⟩)
    (hget : heap.get? k h = some x) : heap.SameObjects heap' := by
  intro k' h'
  by_cases heq : Value.ref k' h' = .ref k h
  · cases heq
    rw [hu.get?_self, hget]
  · exact hu.get?_of_ne heq

/-- Objects and shared texts were given up, and nothing else changed. -/
structure Shrinks (heap heap' : Heap) : Prop where
  restriction : heap'.Extends heap
  interned_subset : heap'.interned ⊆ heap.interned

/-- The texts that are shared. -/
def sharedTexts (heap : Heap) : Set String :=
  { text | ∃ entry ∈ heap.interned, heap.get? .string entry.2 = some text }

theorem Shrinks.sharedTexts_subset (hshrinks : heap.Shrinks heap') : heap'.sharedTexts ⊆ heap.sharedTexts := by
  rintro text ⟨entry, hentry, hget⟩
  exact ⟨entry, hshrinks.interned_subset hentry, hshrinks.restriction _ _ _ hget⟩

theorem Extends.sharedTexts_subset (hext : heap.Extends heap') (hw : heap.WellFormed)
    (htable : heap'.interned = heap.interned) : heap'.sharedTexts ⊆ heap.sharedTexts := by
  rintro text ⟨entry, hentry, hget⟩
  rw [htable] at hentry
  obtain ⟨text', hget', -⟩ := hw.interned entry hentry
  rw [hext _ _ _ hget'] at hget
  exact ⟨entry, hentry, hget'.trans hget⟩

theorem Shrinks.refl (heap : Heap) : heap.Shrinks heap := ⟨fun _ _ _ hget => hget, List.Subset.refl _⟩

theorem Shrinks.trans (h₁ : heap.Shrinks heap') (h₂ : heap'.Shrinks heap'') : heap.Shrinks heap'' :=
  ⟨fun k h x hget => h₁.restriction k h x (h₂.restriction k h x hget),
    List.Subset.trans h₂.interned_subset h₁.interned_subset⟩

theorem Extends.children_subset (hext : heap.Extends heap') (v : Value) : heap.children v ⊆ heap'.children v := by
  intro w hmem
  obtain ⟨k, h, x, rfl, hpins, hget, hmem⟩ := mem_children_iff.mp hmem
  exact mem_children_iff.mpr ⟨k, h, x, rfl, hpins, hext k h x hget, hmem⟩

namespace SameObjects

theorem keeps (hsame : heap.SameObjects heap') : heap.Keeps heap' held :=
  fun k h _ => hsame k h

theorem extension (hsame : heap.SameObjects heap') : heap.Extends heap' :=
  fun k h _ hget => (hsame k h).trans hget

theorem restriction (hsame : heap.SameObjects heap') : heap'.Extends heap :=
  fun k h _ hget => (hsame k h).symm.trans hget

theorem live (hsame : heap.SameObjects heap') (hlive : heap.Live v) : heap'.Live v := by
  cases v with
  | error | boolean | integer | float | type | opcode => trivial
  | ref k h => rwa [Live, hsame k h]

end SameObjects

/-! ## Acyclic heaps -/

/-- No object contains itself, directly or through others. -/
def Acyclic (heap : Heap) : Prop :=
  ∀ v, ¬ Relation.TransGen (fun v w => w ∈ heap.children v) v v

/-- In an acyclic heap, values can be taken up from what they hold. -/
theorem Acyclic.wellFounded (hacyclic : heap.Acyclic) : WellFounded fun w v => w ∈ heap.children v := by
  have hirrefl : Std.Irrefl (Relation.TransGen fun w v => w ∈ heap.children v) :=
    ⟨fun v hv => hacyclic v (Relation.transGen_swap.mp hv)⟩
  have hwf : WellFounded (Relation.TransGen fun w v => w ∈ heap.children v) :=
    Finite.wellFounded_of_trans_of_irrefl _
  exact Subrelation.wf (fun hmem => Relation.TransGen.single hmem) hwf

theorem Acyclic.wellFounded_holders (hacyclic : heap.Acyclic) : WellFounded fun w v => v ∈ heap.children w := by
  have hirrefl : Std.Irrefl (Relation.TransGen fun w v => v ∈ heap.children w) := ⟨hacyclic⟩
  have hwf : WellFounded (Relation.TransGen fun w v => v ∈ heap.children w) :=
    Finite.wellFounded_of_trans_of_irrefl _
  exact Subrelation.wf (fun hmem => Relation.TransGen.single hmem) hwf

theorem Acyclic.of_subset (hacyclic : heap.Acyclic) (hsub : ∀ v, heap'.children v ⊆ heap.children v) :
    heap'.Acyclic := by
  have hle : (fun v w => w ∈ heap'.children v) ≤ fun v w => w ∈ heap.children v := fun v w hmem => hsub v hmem
  exact fun v hcycle => hacyclic v (Relation.TransGen.mono hle v v hcycle)

/-- Changing a slot that no object holds closes no cycle. -/
theorem Acyclic.of_update {new : Slot k.Content} (hacyclic : heap.Acyclic) (hu : heap.Update heap' k h new)
    (hfresh : ∀ w, .ref k h ∉ heap'.children w) : heap'.Acyclic := by
  -- A chain that starts elsewhere never comes to the new object, so all its links were there before.
  have hold : ∀ v w, v ≠ .ref k h → Relation.TransGen (fun v w => w ∈ heap'.children v) v w →
      Relation.TransGen (fun v w => w ∈ heap.children v) v w ∧ w ≠ .ref k h := by
    intro v w hv hchain
    induction hchain with
    | single hmem =>
      refine ⟨.single ?_, fun heq => hfresh v (heq ▸ hmem)⟩
      rwa [← hu.children_of_ne hv]
    | @tail b c _ hmem ih =>
      refine ⟨ih.1.tail ?_, fun heq => hfresh b (heq ▸ hmem)⟩
      rwa [← hu.children_of_ne ih.2]
  intro v hcycle
  by_cases hv : v = .ref k h
  · subst hv
    obtain ⟨w, -, hmem⟩ := Relation.TransGen.tail'_iff.mp hcycle
    exact hfresh w hmem
  · exact hacyclic v (hold v v hv hcycle).1

end Heap

end RefMachine
