import RefMachine.Proofs.Heap.Reach
import RefMachine.Proofs.Outcome
import Mathlib.Data.Multiset.Count

/-!
# Accounting for references

The roots of a heap are the values held outside it. `Balanced heap roots` says that the count of every slot is exactly
the number of its references in the roots and in the objects of the heap, and `Safe heap roots` that it is no less. Both
are instances of one statement, `Accounts heap ledger roots`, in which a ledger says which references are counted beyond
those that there are, and which objects may have none.

Every operation keeps the ledger. It takes some roots over and hands others back: `retain` hands back one more of a root,
`release` takes one, and `insert` takes over what the new object holds, which is excused from being counted until its
first reference is. An operation that fails for want of room or of numbers leaves the heap as it was.
-/

namespace RefMachine

/-- A store is full or a count at its limit: the operation is in order, but the heap has come to its end. -/
def HeapError.Exhausted (e : HeapError) : Prop :=
  e.cause = .full ∨ ∃ h, e.cause = .countOverflow h

/-- What a heap may count besides the references that there are. -/
structure Ledger where
  /-- The references to a value that are counted and that nobody holds any more. -/
  slack : Value → Nat
  /-- The values whose objects may be there though no reference to them is counted. -/
  idle : Value → Prop

namespace Ledger

/-- Every reference counted is held by somebody, and every object is referred to. -/
def exact : Ledger := ⟨fun _ => 0, fun _ => False⟩

/-- The object of one more value need not be referred to. -/
def excuse (ledger : Ledger) (v : Value) : Ledger := ⟨ledger.slack, fun w => w = v ∨ ledger.idle w⟩

end Ledger

namespace Heap

variable {heap heap' heap'' : Heap} {ledger : Ledger} {k : Kind} {h : Handle} {v w : Value}
  {roots roots' : Multiset Value}

/-- The counts are the references in the roots and in the objects, and the objects are those that are referred to. -/
structure Balanced (heap : Heap) (roots : Multiset Value) : Prop where
  wellFormed : heap.WellFormed
  live_iff : ∀ v, v.Counted → (heap.Live v ↔ 0 < heap.counted v)
  counted_eq : ∀ v, v.Counted → heap.counted v = roots.count v + heap.occurrences v
  live : ∀ v, v ∈ roots ∨ 0 < heap.occurrences v → heap.Live v

/-- The counts are at least the references in the roots and in the objects, and all of these refer to objects. -/
structure Safe (heap : Heap) (roots : Multiset Value) : Prop where
  wellFormed : heap.WellFormed
  counted_ge : ∀ v, v.Counted → roots.count v + heap.occurrences v ≤ heap.counted v
  live : ∀ v, v ∈ roots ∨ 0 < heap.occurrences v → heap.Live v

/-- The counts are the references in the roots, in the objects and in the slack of the ledger. -/
structure Accounts (heap : Heap) (ledger : Ledger) (roots : Multiset Value) : Prop where
  wellFormed : heap.WellFormed
  live : ∀ v, v ∈ roots ∨ 0 < heap.occurrences v → heap.Live v
  counted_eq : ∀ v, v.Counted → heap.counted v = roots.count v + heap.occurrences v + ledger.slack v
  counted_pos : ∀ v, v.Counted → heap.Live v → 0 < heap.counted v ∨ ledger.idle v

theorem balanced_iff : heap.Balanced roots ↔ heap.Accounts .exact roots := by
  constructor
  · rintro ⟨hw, hiff, hcount, hlive⟩
    exact ⟨hw, hlive, hcount, fun v hv hl => .inl ((hiff v hv).mp hl)⟩
  · rintro ⟨hw, hlive, hcount, hpos⟩
    refine ⟨hw, fun v hv => ⟨fun hl => (hpos v hv hl).resolve_right id, fun hl => ?_⟩, hcount, hlive⟩
    have hsum := hcount v hv
    change _ = _ + 0 at hsum
    by_cases hroot : v ∈ roots
    · exact hlive v (.inl hroot)
    · rw [Multiset.count_eq_zero_of_notMem hroot] at hsum
      exact hlive v (.inr (by omega))

theorem acyclic_empty : empty.Acyclic := by
  intro v hcycle
  obtain ⟨w, hmem, -⟩ := Relation.TransGen.head'_iff.mp hcycle
  obtain ⟨k, h, x, rfl, hpins, hget, -⟩ := mem_children_iff.mp hmem
  rw [get?_empty hpins] at hget
  exact nomatch hget

theorem balanced_empty : empty.Balanced 0 := by
  have hocc : ∀ v, v.Counted → empty.occurrences v = 0 := by
    intro v hv
    by_contra hne
    obtain ⟨w, hw⟩ := exists_mem_children wellFormed_empty hv (Nat.pos_of_ne_zero hne)
    obtain ⟨k, h, x, rfl, hpins, hget, -⟩ := mem_children_iff.mp hw
    rw [get?_empty hpins] at hget
    exact nomatch hget
  have hcount : ∀ v, v.Counted → empty.counted v = 0 := by
    intro v hv
    cases v with
    | error | boolean | integer | float | type | opcode => rfl
    | ref k h => exact (wellFormed_empty.store k).count_of_released (get?_empty hv)
  refine ⟨wellFormed_empty, fun v hv => ?_, fun v hv => ?_, fun v hv => ?_⟩
  · cases v with
    | error | boolean | integer | float | type | opcode => exact hv.elim
    | ref k h => simp [Live, get?_empty hv, hcount _ hv]
  · rw [hcount v hv, hocc v hv, Multiset.count_zero]
  · by_cases hcounted : v.Counted
    · rw [hocc v hcounted] at hv
      simp at hv
    · exact live_of_not_counted wellFormed_empty hcounted

/-- The ledger that explains the counts of a heap, whatever they are. -/
def surplus (heap : Heap) (roots : Multiset Value) : Ledger :=
  ⟨fun v => heap.counted v - (roots.count v + heap.occurrences v), fun _ => True⟩

theorem Safe.accounts (hsafe : heap.Safe roots) : heap.Accounts (heap.surplus roots) roots where
  wellFormed := hsafe.wellFormed
  live := hsafe.live
  counted_eq v hv := by
    have hle := hsafe.counted_ge v hv
    simp only [surplus]
    omega
  counted_pos _ _ _ := .inr trivial

namespace Accounts

theorem safe_of_le (ha : heap.Accounts ledger roots) (hle : roots' ≤ roots) : heap.Safe roots' where
  wellFormed := ha.wellFormed
  counted_ge v hv := by
    have hcount := ha.counted_eq v hv
    have hroots := Multiset.count_le_of_le v hle
    omega
  live v hv := ha.live v (hv.imp_left (Multiset.mem_of_le hle))

theorem safe (ha : heap.Accounts ledger roots) : heap.Safe roots :=
  ha.safe_of_le le_rfl

theorem live_of_reachable (ha : heap.Accounts ledger roots) (hreach : heap.Reachable {w | w ∈ roots} v) : heap.Live v :=
  ha.live v (hreach.cases ha.wellFormed)

theorem excuse (ha : heap.Accounts ledger roots) (v : Value) : heap.Accounts (ledger.excuse v) roots :=
  ⟨ha.wellFormed, ha.live, ha.counted_eq, fun w hw hl => (ha.counted_pos w hw hl).imp_right .inr⟩

/-- In an acyclic heap with exact counts, a counted slot is live exactly if the roots reach it. -/
theorem live_iff_reachable (ha : heap.Accounts .exact roots) (hacyclic : heap.Acyclic) (hv : v.Counted) :
    heap.Live v ↔ heap.Reachable {w | w ∈ roots} v := by
  refine ⟨fun hlive => ?_, ha.live_of_reachable⟩
  induction v using hacyclic.wellFounded_holders.induction with
  | _ v ih =>
    have hcount := ha.counted_eq v hv
    have hpos := (ha.counted_pos v hv hlive).resolve_right id
    by_cases hroot : v ∈ roots
    · exact .of_mem hroot
    · rw [Multiset.count_eq_zero_of_notMem hroot] at hcount
      change _ = 0 + heap.occurrences v + 0 at hcount
      obtain ⟨w, hw⟩ := exists_mem_children ha.wellFormed hv (by omega)
      obtain ⟨k, h, x, rfl, hpins, hget, -⟩ := mem_children_iff.mp hw
      exact (ih (.ref k h) hw hpins (by simp [Live, hget])).child hw

theorem of_counts (ha : heap.Accounts ledger roots) (hcounts : ∀ v, v.Counted → roots'.count v = roots.count v) :
    heap.Accounts ledger roots' where
  wellFormed := ha.wellFormed
  live v hv := by
    by_cases hcounted : v.Counted
    · refine ha.live v (hv.imp_left fun hmem => ?_)
      rw [← Multiset.count_pos, ← hcounts v hcounted]
      exact Multiset.count_pos.mpr hmem
    · exact live_of_not_counted ha.wellFormed hcounted
  counted_eq v hv := by
    rw [hcounts v hv]
    exact ha.counted_eq v hv
  counted_pos := ha.counted_pos

theorem cons_of_not_counted (ha : heap.Accounts ledger roots) (hv : ¬ v.Counted) :
    heap.Accounts ledger (v ::ₘ roots) :=
  ha.of_counts fun w hw => Multiset.count_cons_of_ne (fun heq : w = v => hv (heq ▸ hw)) roots

theorem of_cons_of_not_counted (ha : heap.Accounts ledger (v ::ₘ roots)) (hv : ¬ v.Counted) :
    heap.Accounts ledger roots :=
  ha.of_counts fun w hw => (Multiset.count_cons_of_ne (fun heq : w = v => hv (heq ▸ hw)) roots).symm

theorem recount {ledger' : Ledger} {x : k.Content} {count : Nat} (ha : heap.Accounts ledger roots)
    (hget : heap.get? k h = some x) (hu : heap.Update heap' k h ⟨some x, count⟩) (hw : heap'.WellFormed)
    (hpos : 0 < count) (hroots : ∀ v, v ≠ .ref k h → roots'.count v = roots.count v)
    (hcount : count = roots'.count (.ref k h) + heap.occurrences (.ref k h) + ledger'.slack (.ref k h))
    (hslack : ledger'.slack = ledger.slack) (hidle : ∀ v, v ≠ .ref k h → ledger.idle v → ledger'.idle v) :
    heap'.Accounts ledger' roots' := by
  have hocc : ∀ v, heap'.occurrences v = heap.occurrences v := by
    intro v
    have := hu.occurrences_eq v
    simp only [hget, Option.map_some, Option.getD_some] at this
    omega
  refine ⟨hw, fun v hv => ?_, fun v hv => ?_, fun v hv hlive => ?_⟩
  · by_cases heq : v = .ref k h
    · rw [heq, hu.live_self]
      rfl
    · rw [hu.live_of_ne heq]
      rw [hocc, ← Multiset.count_pos, hroots v heq, Multiset.count_pos] at hv
      exact ha.live v hv
  · by_cases heq : v = .ref k h
    · rw [heq, hu.counted_self, hocc]
      exact hcount
    · rw [hu.counted_of_ne heq, hroots v heq, hocc, hslack]
      exact ha.counted_eq v hv
  · by_cases heq : v = .ref k h
    · rw [heq, hu.counted_self]
      exact .inl hpos
    · rw [hu.counted_of_ne heq]
      rw [hu.live_of_ne heq] at hlive
      exact (ha.counted_pos v hv hlive).imp_right (hidle v heq)

/-! ## Retaining -/

theorem retain (ha : heap.Accounts (ledger.excuse v) roots) (hlive : heap.Live v) :
    Ends (fun _ heap' => heap'.Accounts ledger (v ::ₘ roots) ∧ heap.SameObjects heap' ∧ heap'.interned = heap.interned)
      (fun e heap' => e.Exhausted ∧ heap' = heap) (Heap.retain v heap) := by
  rcases retain_cases ha.wellFormed v with ⟨hv, hrun⟩ | ⟨k, h, x, count, heap', rfl, hv, hslot, hrun, hu, hw, htable⟩ |
    ⟨k, h, -, -, hrun⟩ | ⟨k, h, rfl, hget, -⟩
  · rw [hrun]
    refine ⟨cons_of_not_counted ⟨ha.wellFormed, ha.live, ha.counted_eq, fun w hw hl => ?_⟩ hv, fun _ _ => rfl, rfl⟩
    refine (ha.counted_pos w hw hl).imp_right fun hidle => hidle.resolve_left ?_
    rintro rfl
    exact hv hw
  · rw [hrun]
    have hget := get?_of_slot? hslot
    have hcount := ha.counted_eq _ hv
    rw [counted_of_slot? hslot] at hcount
    refine ⟨ha.recount hget hu hw (Nat.succ_pos _) (fun w hne => Multiset.count_cons_of_ne hne _) ?_ rfl
      fun w hne hidle => hidle.resolve_left hne, hu.sameObjects hget, htable⟩
    rw [Multiset.count_cons_self]
    simp only [Ledger.excuse] at hcount
    omega
  · rw [hrun]
    exact ⟨.inr ⟨h, rfl⟩, rfl⟩
  · simp [Live, hget] at hlive

/-! ## New objects -/

theorem insert {x : k.Content} (ha : heap.Accounts ledger (k.references x + roots)) :
    Ends (fun h heap' => heap'.Accounts (ledger.excuse (.ref k h)) roots ∧ heap.get? k h = none ∧
        heap.Update heap' k h ⟨some x, 0⟩ ∧ (heap.Acyclic → heap'.Acyclic) ∧ heap'.interned = heap.interned)
      (fun e heap' => e.Exhausted ∧ heap' = heap) (Heap.insert k x heap) := by
  rcases insert_cases ha.wellFormed x with ⟨h, heap', hrun, hget, hu, hw, htable⟩ | hrun
  · rw [hrun]
    have hdead : ¬ heap.Live (.ref k h) := by simp [Live, hget]
    have hocc : ∀ v, heap'.occurrences v = heap.occurrences v + (k.references x).count v := by
      intro v
      have := hu.occurrences_eq v
      simp only [hget, Option.map_none, Option.getD_none, Option.map_some, Option.getD_some] at this
      omega
    -- Nothing can refer to a slot that is not live, so neither do the roots nor the new object itself.
    have hroot : Value.ref k h ∉ (k.references x + roots : Multiset Value) := fun hmem => hdead (ha.live _ (.inl hmem))
    have hheld : heap.occurrences (.ref k h) = 0 := by
      by_contra hne
      exact hdead (ha.live _ (.inr (Nat.pos_of_ne_zero hne)))
    have hself : (k.references x).count (.ref k h) = 0 :=
      List.count_eq_zero_of_not_mem fun hmem => hroot (Multiset.mem_add.mpr (.inl hmem))
    have hcount : heap.counted (.ref k h) = 0 := (ha.wellFormed.store k).count_of_released hget
    refine ⟨⟨hw, fun v hv => ?_, fun v hv => ?_, fun v hv hlive => ?_⟩, hget, hu,
      fun hacyclic => hacyclic.of_update hu fun w hmem => ?_, htable⟩
    · by_cases heq : v = .ref k h
      · rw [heq, hu.live_self]
        rfl
      · rw [hu.live_of_ne heq]
        rcases hv with hv | hv
        · exact ha.live v (.inl (Multiset.mem_add.mpr (.inr hv)))
        · rw [hocc] at hv
          by_cases hpos : 0 < heap.occurrences v
          · exact ha.live v (.inr hpos)
          · have hmem : v ∈ k.references x := List.count_pos_iff.mp (by omega)
            exact ha.live v (.inl (Multiset.mem_add.mpr (.inl hmem)))
    · have hsum := ha.counted_eq v hv
      rw [Multiset.count_add, Multiset.coe_count] at hsum
      by_cases heq : v = .ref k h
      · subst heq
        rw [hu.counted_self, hocc]
        simp only [Ledger.excuse]
        omega
      · rw [hu.counted_of_ne heq, hocc]
        simp only [Ledger.excuse]
        omega
    · by_cases heq : v = .ref k h
      · exact .inr (.inl heq)
      · rw [hu.counted_of_ne heq]
        rw [hu.live_of_ne heq] at hlive
        exact (ha.counted_pos v hv hlive).imp_right .inr
    · have hpos := occurrences_pos_of_mem_children hw hmem
      rw [hocc, hheld, hself] at hpos
      exact absurd hpos (by decide)
  · rw [hrun]
    exact ⟨.inl rfl, rfl⟩

/-! ## Releasing -/

/-- When a slot with one reference is emptied, the references of its object become roots. -/
theorem freed {x : k.Content} (ha : heap.Accounts ledger (.ref k h ::ₘ roots)) (hv : (Value.ref k h).Counted)
    (hslot : heap.slot? k h = some ⟨some x, 1⟩) (hu : heap.Update heap' k h ⟨none, 0⟩) (hw : heap'.WellFormed) :
    heap'.Accounts ledger (k.references x + roots) ∧ heap.Keeps heap' {w | w ∈ roots} ∧ heap'.Extends heap := by
  have hget := get?_of_slot? hslot
  have hsum := ha.counted_eq _ hv
  rw [counted_of_slot? hslot, Multiset.count_cons_self] at hsum
  have hocc : ∀ v, heap'.occurrences v + (k.references x).count v = heap.occurrences v := by
    intro v
    have := hu.occurrences_eq v
    simp only [hget, Option.map_some, Option.getD_some, Option.map_none, Option.getD_none] at this
    omega
  have hself := hocc (.ref k h)
  have hne : ∀ w, w ∈ (k.references x + roots : Multiset Value) ∨ 0 < heap'.occurrences w → w ≠ .ref k h := by
    rintro w hw rfl
    rw [← Multiset.count_pos, Multiset.count_add, Multiset.coe_count] at hw
    omega
  refine ⟨⟨hw, fun w hmem => ?_, fun w hcounted => ?_, fun w hcounted hlive => ?_⟩, ?_, fun k' h' y hy => ?_⟩
  · rw [hu.live_of_ne (hne w hmem)]
    have := hocc w
    rw [← Multiset.count_pos, Multiset.count_add, Multiset.coe_count] at hmem
    by_cases hroot : 0 < roots.count w
    · exact ha.live w (.inl (Multiset.mem_cons_of_mem (Multiset.count_pos.mp hroot)))
    · exact ha.live w (.inr (by omega))
  · rw [Multiset.count_add, Multiset.coe_count]
    have := hocc w
    by_cases heq : w = .ref k h
    · subst heq
      rw [hu.counted_self]
      change 0 = _
      omega
    · have hcount := ha.counted_eq w hcounted
      rw [Multiset.count_cons_of_ne heq] at hcount
      rw [hu.counted_of_ne heq]
      omega
  · by_cases heq : w = .ref k h
    · rw [heq, hu.live_self] at hlive
      exact absurd hlive (by simp)
    · rw [hu.counted_of_ne heq]
      rw [hu.live_of_ne heq] at hlive
      exact ha.counted_pos w hcounted hlive
  · intro k' h' hreach
    refine hu.get?_of_ne fun heq => ?_
    rw [heq] at hreach
    rcases hreach.cases ha.wellFormed with hroot | hpos
    · have := Multiset.count_pos.mpr hroot
      omega
    · omega
  · by_cases heq : Value.ref k' h' = .ref k h
    · cases heq
      rw [hu.get?_self] at hy
      cases hy
    · rwa [hu.get?_of_ne heq] at hy

theorem releaseOne (ha : heap.Accounts ledger (v ::ₘ roots)) :
    ∃ held heap', Heap.releaseOne v heap = .ok held heap' ∧ heap'.Accounts ledger (held + roots) ∧
      heap.Keeps heap' {w | w ∈ roots} ∧ heap.Shrinks heap' := by
  rcases releaseOne_cases ha.wellFormed v with ⟨hv, hrun⟩ | ⟨k, h, x, heap', rfl, hv, hslot, hrun, hu, hw, htable⟩ |
    ⟨k, h, x, count, heap', rfl, hv, hslot, hrun, hu, hw, htable⟩ | ⟨k, h, x, rfl, hv, hslot, -⟩ | ⟨k, h, rfl, hget, -⟩
  · refine ⟨[], heap, hrun, ?_, .refl _ _, .refl _⟩
    rw [Multiset.coe_nil, zero_add]
    exact ha.of_cons_of_not_counted hv
  · obtain ⟨ha', hkeeps, hrestrict⟩ := ha.freed hv hslot hu hw
    exact ⟨_, heap', hrun, ha', hkeeps, hrestrict, htable ▸ interned_forgetContent_subset k h x heap⟩
  · -- Other references are left, and the object stays.
    have hget := get?_of_slot? hslot
    have hsum := ha.counted_eq _ hv
    rw [counted_of_slot? hslot, Multiset.count_cons_self] at hsum
    have hsame := hu.sameObjects hget
    refine ⟨[], heap', hrun, ?_, hsame.keeps, hsame.restriction, htable ▸ List.Subset.refl _⟩
    rw [Multiset.coe_nil, zero_add]
    refine ha.recount hget hu hw (Nat.succ_pos _) (fun w hne => (Multiset.count_cons_of_ne hne _).symm) ?_ rfl
      fun _ _ hidle => hidle
    omega
  · have hsum := ha.counted_eq _ hv
    rw [counted_of_slot? hslot, Multiset.count_cons_self] at hsum
    omega
  · have hlive := ha.live _ (.inl (Multiset.mem_cons_self _ roots))
    simp [Live, hget] at hlive

/-- `releaseAll` never fails on references that are accounted for, and what the other roots reach is kept. -/
theorem releaseAll {pending : List Value} (ha : heap.Accounts ledger (pending + roots)) :
    ∃ heap', Heap.releaseAll pending heap = .ok () heap' ∧ heap'.Accounts ledger roots ∧ heap.Keeps heap' {w | w ∈ roots} ∧
      heap.Shrinks heap' := by
  induction pending, heap using Heap.releaseAll.induct with
  | case1 heap =>
    rw [Multiset.coe_nil, zero_add] at ha
    exact ⟨heap, by rw [Heap.releaseAll], ha, .refl _ _, .refl _⟩
  | case2 heap v rest held heap' hstep ih =>
    rw [← Multiset.cons_coe, Multiset.cons_add] at ha
    obtain ⟨held', heap₁, hrun, ha₁, hkeeps, hshrinks⟩ := ha.releaseOne
    rw [hstep] at hrun
    cases hrun
    obtain ⟨heap₂, hrest, ha₂, hkeeps₂, hshrinks₂⟩ := ih (by rwa [← Multiset.coe_add, add_assoc])
    refine ⟨heap₂, ?_, ha₂, (hkeeps.mono ?_).trans hkeeps₂, hshrinks.trans hshrinks₂⟩
    · rw [releaseAll_of_ok hstep, hrest]
    · exact fun w hw => Multiset.mem_add.mpr (.inr hw)
  | case3 heap v rest e heap' hstep =>
    rw [← Multiset.cons_coe, Multiset.cons_add] at ha
    obtain ⟨held', heap₁, hrun, -⟩ := ha.releaseOne
    rw [hstep] at hrun
    cases hrun

theorem release (ha : heap.Accounts ledger (v ::ₘ roots)) :
    ∃ heap', Heap.release v heap = .ok () heap' ∧ heap'.Accounts ledger roots ∧ heap.Keeps heap' {w | w ∈ roots} ∧
      heap.Shrinks heap' :=
  @releaseAll _ _ _ [v] ha

end Accounts

end Heap

end RefMachine
