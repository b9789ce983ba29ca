import RefMachine.Proofs.Machine.Roots

/-!
# Growing the scope

A wider scope counts one more reference to every value of the old one, and then those of the old one are given up. In
between the counts are higher, and nothing else differs: `bump` is a heap with one more reference counted. Counting a
reference is a bump where the limit allows it, and giving one up undoes a bump where a count was positive before it, so
that no object goes in between. Bumps may be done in any order (`bump_comm`), so each release undoes the bump of its own
value, also where variables share an object (`releaseEach_bumpAll`).

Nothing is asked of the heap but that the objects in the scope are there and counted.
-/

namespace RefMachine

/-! ## One more reference -/

theorem modify_of_getElem? {β : Type} {xs : Array β} {i : Nat} {x : β} (hx : xs[i]? = some x) (f : β → β) :
    xs.modify i f = xs.setIfInBounds i (f x) := by
  obtain ⟨hlt, -⟩ := Array.getElem?_eq_some_iff.mp hx
  apply Array.ext_getElem?
  intro j
  rw [Array.getElem?_modify, Array.getElem?_setIfInBounds, if_pos hlt]
  split_ifs with hj
  · rw [← hj, hx, Option.map_some]
  · rfl

theorem setIfInBounds_modify {β : Type} {xs : Array β} {i : Nat} {x : β} (hx : xs[i]? = some x) (f : β → β) :
    (xs.modify i f).setIfInBounds i x = xs := by
  obtain ⟨hlt, -⟩ := Array.getElem?_eq_some_iff.mp hx
  apply Array.ext_getElem?
  intro j
  rw [Array.getElem?_setIfInBounds, Array.size_modify, if_pos hlt, Array.getElem?_modify]
  split_ifs with hj
  · rw [← hj, hx]
  · rfl

namespace Store

variable {α : Type} {s : Store α} {h h' : Handle} {more : Nat}

/-- The store with one more reference counted at a slot, unless the slot is pinned. -/
def bump (s : Store α) (h : Handle) : Store α :=
  if s.pins h then s
  else { s with slots := s.slots.modify h.index fun slot => { slot with count := slot.count + 1 } }

/-- The slot is pinned, or it holds an object that is referred to and may be so by some more. -/
def Bears (s : Store α) (h : Handle) (more : Nat) : Prop :=
  s.pins h = false → ∃ x count, s.slot? h = some ⟨some x, count + 1⟩ ∧ count + 1 + more ≤ maxCount

theorem bump_of_pins (hpins : s.pins h = true) : s.bump h = s :=
  if_pos hpins

theorem bump_of_not_pins (hpins : s.pins h = false) :
    s.bump h = { s with slots := s.slots.modify h.index fun slot => { slot with count := slot.count + 1 } } :=
  if_neg (by simp [hpins])

@[simp] theorem pins_bump (s : Store α) (h h' : Handle) : (s.bump h).pins h' = s.pins h' := by
  unfold bump
  split_ifs <;> rfl

theorem slot?_bump_of_ne (hne : h ≠ h') : (s.bump h).slot? h' = s.slot? h' := by
  cases hpins : s.pins h with
  | true => rw [bump_of_pins hpins]
  | false =>
    have hindex : h.index ≠ h'.index := fun heq => hne (Handle.index_inj.mp heq)
    rw [bump_of_not_pins hpins]
    simp [slot?, Array.getElem?_modify, hindex]

theorem slot?_bump_self {slot : Slot α} (hpins : s.pins h = false) (hslot : s.slot? h = some slot) :
    (s.bump h).slot? h = some { slot with count := slot.count + 1 } := by
  have hslot' : s.slots[h.index]? = some slot := hslot
  rw [bump_of_not_pins hpins]
  simp [slot?, Array.getElem?_modify, hslot']

theorem bump_comm (s : Store α) (h h' : Handle) : (s.bump h).bump h' = (s.bump h').bump h := by
  cases hpins : s.pins h with
  | true => rw [bump_of_pins hpins, bump_of_pins ((pins_bump s h' h).trans hpins)]
  | false =>
    cases hpins' : s.pins h' with
    | true => rw [bump_of_pins hpins', bump_of_pins ((pins_bump s h h').trans hpins')]
    | false =>
      rw [bump_of_not_pins ((pins_bump s h h').trans hpins'), bump_of_not_pins ((pins_bump s h' h).trans hpins),
        bump_of_not_pins hpins, bump_of_not_pins hpins']
      congr 1
      apply Array.ext_getElem?
      intro i
      simp only [Array.getElem?_modify]
      split_ifs <;> rfl

theorem Bears.mono (hs : s.Bears h more) {less : Nat} (hle : less ≤ more) : s.Bears h less := by
  intro hpins
  obtain ⟨x, count, hslot, hlimit⟩ := hs hpins
  exact ⟨x, count, hslot, by omega⟩

theorem Bears.bump_self (hs : s.Bears h (more + 1)) : (s.bump h).Bears h more := by
  intro hpins
  rw [pins_bump] at hpins
  obtain ⟨x, count, hslot, hlimit⟩ := hs hpins
  exact ⟨x, count + 1, slot?_bump_self hpins hslot, by omega⟩

theorem Bears.bump_of_ne (hs : s.Bears h' more) (hne : h ≠ h') : (s.bump h).Bears h' more := by
  intro hpins
  rw [pins_bump] at hpins
  rw [slot?_bump_of_ne hne]
  exact hs hpins

theorem slot?_of_count? {count : Nat} (hcount : s.count? h = some count) : ∃ x, s.slot? h = some ⟨some x, count⟩ := by
  obtain ⟨⟨content, _⟩, hslot, hcontent⟩ := Option.bind_eq_some_iff.mp hcount
  obtain ⟨x, hx, rfl⟩ := Option.map_eq_some_iff.mp hcontent
  cases hx
  exact ⟨x, hslot⟩

theorem Bears.retain (hs : s.Bears h 1) : Store.retain h s = .ok () (s.bump h) := by
  cases hpins : s.pins h with
  | true => rw [bump_of_pins hpins, Store.retain, if_pos hpins]
  | false =>
    obtain ⟨x, count, hslot, hlimit⟩ := hs hpins
    have hslot' : s.slots[h.index]? = some ⟨some x, count + 1⟩ := hslot
    rw [bump_of_not_pins hpins, modify_of_getElem? hslot']
    simp only [Store.retain, hpins, Bool.false_eq_true, if_false, hslot']
    rw [if_pos (by omega)]

theorem Bears.release_bump (hs : s.Bears h more) : Store.release h (s.bump h) = .ok none s := by
  cases hpins : s.pins h with
  | true => rw [bump_of_pins hpins, Store.release, if_pos hpins]
  | false =>
    obtain ⟨x, count, hslot, -⟩ := hs hpins
    have hbumped : (s.bump h).slots[h.index]? = some ⟨some x, count + 2⟩ := slot?_bump_self hpins hslot
    simp only [Store.release, pins_bump, hpins, Bool.false_eq_true, if_false, hbumped]
    rw [bump_of_not_pins hpins]
    simp only [setIfInBounds_modify hslot]

end Store

namespace Heap

variable {heap : Heap} {v w : Value} {vs : List Value} {more : Nat}

/-- The heap with one more reference counted to the object of a value. -/
def bump (heap : Heap) : Value → Heap
  | .ref k h => heap.setStore k ((heap.store k).bump h)
  | _ => heap

/-- The heap with one more reference counted for each of the values. -/
def bumpAll (heap : Heap) (vs : List Value) : Heap :=
  vs.foldl bump heap

/-- The value is no handle, or its slot is pinned or holds an object that is referred to and may be so by some more. -/
def Bears (heap : Heap) : Value → Nat → Prop
  | .ref k h, more => (heap.store k).Bears h more
  | _, _ => True

theorem bump_comm (heap : Heap) (v w : Value) : (heap.bump v).bump w = (heap.bump w).bump v := by
  cases v with
  | error | boolean | integer | float | type | opcode => rfl
  | ref k h =>
    cases w with
    | error | boolean | integer | float | type | opcode => rfl
    | ref k' h' =>
      have hstore := (heap.store k).bump_comm h
      cases k <;> cases k' <;> first | rfl | simp only [bump, setStore, store] at hstore ⊢; rw [hstore h']

theorem bumpAll_cons (heap : Heap) (v : Value) (vs : List Value) :
    heap.bumpAll (v :: vs) = (heap.bumpAll vs).bump v := by
  induction vs generalizing heap with
  | nil => rfl
  | cons w vs ih =>
    calc heap.bumpAll (v :: w :: vs)
        = ((heap.bump v).bump w).bumpAll vs := rfl
      _ = ((heap.bump w).bump v).bumpAll vs := by rw [bump_comm]
      _ = ((heap.bump w).bumpAll vs).bump v := ih (heap.bump w)

theorem Bears.mono (hv : heap.Bears v more) {less : Nat} (hle : less ≤ more) : heap.Bears v less := by
  cases v with
  | error | boolean | integer | float | type | opcode => trivial
  | ref k h => exact Store.Bears.mono hv hle

theorem Bears.bump (hw : heap.Bears w ((v :: vs).count w)) : (heap.bump v).Bears w (vs.count w) := by
  by_cases hvw : v = w
  · subst hvw
    rw [List.count_cons_self] at hw
    cases v with
    | error | boolean | integer | float | type | opcode => trivial
    | ref k h =>
      change ((heap.setStore k _).store k).Bears h _
      rw [store_setStore]
      exact Store.Bears.bump_self hw
  · rw [List.count_cons_of_ne hvw] at hw
    cases w with
    | error | boolean | integer | float | type | opcode => trivial
    | ref k h =>
      cases v with
      | error | boolean | integer | float | type | opcode => exact hw
      | ref k' h' =>
        change ((heap.setStore k' _).store k).Bears h _
        by_cases hk : k = k'
        · subst hk
          rw [store_setStore]
          exact Store.Bears.bump_of_ne hw fun heq => hvw (by rw [heq])
        · rw [store_setStore_of_ne _ _ hk]
          exact hw

theorem Bears.bumpAll (hw : heap.Bears w (vs.count w)) : (heap.bumpAll vs).Bears w 0 := by
  induction vs generalizing heap with
  | nil => exact hw
  | cons v vs ih => exact ih hw.bump

theorem Bears.retain (hv : heap.Bears v 1) : Heap.retain v heap = .ok () (heap.bump v) := by
  cases v with
  | error | boolean | integer | float | type | opcode => rfl
  | ref k h => rw [Heap.retain, onStore_eq, Store.Bears.retain hv, locate, Heap.bump]

theorem Bears.release_bump (hv : heap.Bears v more) : release v (heap.bump v) = .ok () heap := by
  have hone : releaseOne v (heap.bump v) = .ok [] heap := by
    cases v with
    | error | boolean | integer | float | type | opcode => rfl
    | ref k h =>
      rw [releaseOne, releaseAt_eq, Heap.bump, store_setStore, Store.Bears.release_bump hv]
      cases k <;> rfl
  rw [release, releaseAll_of_ok hone, List.append_nil, releaseAll]

end Heap

/-! ## The wider scope -/

/-- The values of those variables that are bound. -/
def boundValues (xs : List Variable) : List Value :=
  xs.filterMap fun x => x.binding.map Binding.value

namespace Scope

variable {scope : Scope} {names : VariableNames} {heap : Heap}

theorem mapM_bumpAll {α : Type} {f : α → HeapM Variable} {g : α → Variable} {xs : List α}
    (hunset : ∀ a heap, (g a).binding = none → f a heap = .ok (g a) heap)
    (hbound : ∀ a heap b, (g a).binding = some b → heap.Bears b.value 1 → f a heap = .ok (g a) (heap.bump b.value))
    (hbears : ∀ v ∈ boundValues (xs.map g), heap.Bears v ((boundValues (xs.map g)).count v)) :
    xs.mapM f heap = .ok (xs.map g) (heap.bumpAll (boundValues (xs.map g))) := by
  induction xs generalizing heap with
  | nil => rfl
  | cons a xs ih =>
    rw [List.mapM_cons]
    cases hb : (g a).binding with
    | none =>
      have hvalues : boundValues ((a :: xs).map g) = boundValues (xs.map g) := by
        simp [boundValues, hb]
      rw [hvalues] at hbears ⊢
      rw [bind_apply_of_ok (hunset a heap hb), bind_apply_of_ok (ih hbears)]
      rfl
    | some b =>
      have hvalues : boundValues ((a :: xs).map g) = b.value :: boundValues (xs.map g) := by
        simp [boundValues, hb]
      rw [hvalues] at hbears ⊢
      have hone : heap.Bears b.value 1 := by
        refine (hbears b.value List.mem_cons_self).mono ?_
        rw [List.count_cons_self]
        omega
      have hrest := @ih (heap.bump b.value) fun v hv => (hbears v (List.mem_cons_of_mem _ hv)).bump
      rw [bind_apply_of_ok (hbound a heap b hb hone), bind_apply_of_ok hrest]
      rfl

/-- The scope for some names that has the bindings of another one. -/
def widened (scope : Scope) (names : VariableNames) : Scope :=
  ⟨names.registry.texts.mapIdx fun index name => ⟨name, scope.binding? index⟩⟩

theorem size_widened (scope : Scope) (names : VariableNames) : (scope.widened names).size = names.size := by
  simp [size, widened, VariableNames.size, Registry.size]

theorem names_widened (scope : Scope) (names : VariableNames) :
    (scope.widened names).slots.map Variable.name = names.registry.texts := by
  apply Array.ext_getElem?
  intro i
  simp [widened, Function.comp_def]

theorem binding?_of_size_le {i : Nat} (hi : scope.size ≤ i) : scope.binding? i = none := by
  simp [binding?, Array.getElem?_eq_none hi]

theorem binding?_widened (hsize : scope.size ≤ names.size) (i : Nat) :
    (scope.widened names).binding? i = scope.binding? i := by
  by_cases hi : i < names.size
  · have hname : names.registry.texts[i]? = some names.registry.texts[i] := Array.getElem?_eq_getElem hi
    simp [binding?, widened, hname]
  · have hwidened : (scope.widened names).size ≤ i := by
      rw [size_widened]
      omega
    rw [binding?_of_size_le hwidened, binding?_of_size_le (by omega)]

theorem values_eq_range {n : Nat} (hn : scope.size ≤ n) :
    scope.values = (List.range n).filterMap fun i => (scope.binding? i).map Binding.value := by
  change scope.slots.size ≤ n at hn
  have hbindings : (List.range n).map scope.binding? =
      scope.slots.toList.map Variable.binding ++ List.replicate (n - scope.slots.size) none := by
    refine List.ext_getElem (by simp; omega) fun i hi hi' => ?_
    rw [List.getElem_map, List.getElem_range, binding?]
    by_cases hlt : i < scope.slots.size
    · rw [List.getElem_append_left (by simpa using hlt), List.getElem_map, Array.getElem?_eq_getElem hlt,
        Option.bind_some, Array.getElem_toList]
    · rw [List.getElem_append_right (by simpa using hlt), List.getElem_replicate,
        Array.getElem?_eq_none (Nat.le_of_not_lt hlt), Option.bind_none]
  calc scope.values
      = (scope.slots.toList.map Variable.binding ++ List.replicate (n - scope.slots.size) none).filterMap
          (Option.map Binding.value) := by
        simp [values, List.filterMap_map]
    _ = (List.range n).filterMap fun i => (scope.binding? i).map Binding.value := by
        rw [← hbindings, List.filterMap_map]
        rfl

theorem values_widened (hsize : scope.size ≤ names.size) : (scope.widened names).values = scope.values := by
  rw [values_eq_range hsize, values_eq_range (size_widened scope names).le]
  simp only [binding?_widened hsize]

/-- `Scope.copy` yields the `widened` scope and counts one more reference to each value. -/
theorem copy_eq (hsize : scope.size ≤ names.size) (hbears : ∀ v ∈ scope.values, heap.Bears v (scope.values.count v)) :
    scope.copy names heap = .ok (scope.widened names) (heap.bumpAll scope.values) := by
  let g : String × Nat → Variable := fun place => ⟨place.1, scope.binding? place.2⟩
  have hslots : (scope.widened names).slots.toList = names.registry.texts.toList.zipIdx.map g := by
    simp [widened, g, List.mapIdx_eq_zipIdx_map]
  have hvalues : boundValues (names.registry.texts.toList.zipIdx.map g) = scope.values := by
    rw [← hslots, ← values_widened hsize]
    rfl
  rw [← hvalues] at hbears ⊢
  have hwidened : scope.widened names = ⟨(names.registry.texts.toList.zipIdx.map g).toArray⟩ := by
    rw [← hslots]
  rw [hwidened]
  refine bind_apply_of_ok (mapM_bumpAll (fun place heap hb => ?_) (fun place heap b hb hone => ?_) hbears) _
  · change scope.binding? place.2 = none at hb
    simp only [hb, g]
    rfl
  · change scope.binding? place.2 = some b at hb
    simp only [hb, g]
    exact bind_apply_of_ok hone.retain _

end Scope

namespace Machine

variable {m : Machine} {vs : List Value}

theorem releaseEach_bumpAll {heap : Heap} (hbears : ∀ v ∈ vs, heap.Bears v (vs.count v)) (m : Machine) :
    (vs.forM fun v => onHeap (Heap.release v)) { m with heap := heap.bumpAll vs } = .ok () { m with heap := heap } := by
  induction vs with
  | nil => rfl
  | cons v vs ih =>
    have hv : (heap.bumpAll vs).Bears v 0 :=
      ((hbears v List.mem_cons_self).mono List.count_le_count_cons).bumpAll
    have hrun : onHeap (Heap.release v) { m with heap := heap.bumpAll (v :: vs) } =
        .ok () { m with heap := heap.bumpAll vs } := by
      rw [onHeap_eq, Heap.bumpAll_cons, hv.release_bump]
    have hrest := ih fun w hw => (hbears w (List.mem_cons_of_mem v hw)).mono List.count_le_count_cons
    exact (bind_apply_of_ok hrun _).trans hrest

end Machine

/-- **Widening the scope.** If there are no more names than variables, `resizeScope` does nothing. Otherwise the scope
comes to have a variable for each name; the old ones are bound as they were, the new ones are unset, and the heap is
what it was, as is all else. -/
theorem scope_growth_invisible {m : Machine} (names : VariableNames)
    (hheld : ∀ k h, .ref k h ∈ m.scope.values → ∃ count, m.heap.refCount? (.ref k h) = some count ∧ 0 < count)
    (hlimit : ∀ k h count, .ref k h ∈ m.scope.values → (m.heap.store k).pins h = false →
      m.heap.refCount? (.ref k h) = some count → count + m.scope.values.count (.ref k h) ≤ Store.maxCount) :
    (names.size ≤ m.scope.size → Machine.resizeScope names m = .ok () m) ∧
      (m.scope.size < names.size → ∃ wider, Machine.resizeScope names m = .ok () { m with scope := wider } ∧
        wider.size = names.size ∧ wider.slots.map Variable.name = names.registry.texts ∧
        (∀ i < m.scope.size, wider.binding? i = m.scope.binding? i) ∧
        ∀ i, m.scope.size ≤ i → wider.binding? i = none) := by
  constructor
  · intro hsize
    rw [Machine.resizeScope, get_bind_apply]
    simp only [if_neg (Nat.not_lt.mpr hsize)]
    rfl
  · intro hsize
    have hbears : ∀ v ∈ m.scope.values, m.heap.Bears v (m.scope.values.count v) := by
      intro v hv
      cases v with
      | error | boolean | integer | float | type | opcode => trivial
      | ref k h =>
        intro hpins
        obtain ⟨count, hcount, hpos⟩ := hheld k h hv
        obtain ⟨x, hslot⟩ := Store.slot?_of_count? hcount
        obtain ⟨count, rfl⟩ := Nat.exists_eq_add_one.mpr hpos
        exact ⟨x, count, hslot, hlimit k h _ hv hpins hcount⟩
    refine ⟨m.scope.widened names, ?_, m.scope.size_widened names, m.scope.names_widened names, fun i _ =>
      Scope.binding?_widened hsize.le i, fun i hi => ?_⟩
    · have hcopy : Machine.onHeap (m.scope.copy names) m =
          .ok (m.scope.widened names) { m with heap := m.heap.bumpAll m.scope.values } := by
        rw [Machine.onHeap_eq, Scope.copy_eq hsize.le hbears]
      rw [Machine.resizeScope, get_bind_apply]
      simp only [if_pos hsize]
      rw [bind_apply_of_ok hcopy]
      exact Machine.releaseEach_bumpAll hbears { m with scope := m.scope.widened names }
    · rw [Scope.binding?_widened hsize.le, Scope.binding?_of_size_le hi]

/-- Two variables share a tuple, a third one holds the string in it, and the last is unset. -/
def sharedTuple : Machine where
  heap := {
    strings := { slots := #[⟨some "text", 2⟩] }
    tuples := { slots := #[⟨some [], Store.pinnedCount⟩, ⟨some [.ref .string ⟨0⟩], 2⟩], hasSentinel := true } }
  scope := ⟨#[⟨"first", some ⟨.ref .tuple ⟨1⟩, .mutable⟩⟩, ⟨"second", some ⟨.ref .tuple ⟨1⟩, .immutable⟩⟩,
    ⟨"third", some ⟨.ref .string ⟨0⟩, .immutable⟩⟩, ⟨"fourth", none⟩]⟩

/-- One name more than these variables have. -/
def fiveNames : VariableNames :=
  ⟨((((Registry.empty.push "first").push "second").push "third").push "fourth").push "fifth"⟩

/-- The scope grows by a variable, and the heap with the shared tuple is what it was. -/
theorem scope_growth_invisible_shared :
    sharedTuple.scope.values = [.ref .tuple ⟨1⟩, .ref .tuple ⟨1⟩, .ref .string ⟨0⟩] ∧
      ∃ wider, Machine.resizeScope fiveNames sharedTuple = .ok () { sharedTuple with scope := wider } ∧
        wider.size = 5 ∧ wider.binding? 1 = some ⟨.ref .tuple ⟨1⟩, .immutable⟩ ∧ wider.binding? 4 = none := by
  have hvalues : sharedTuple.scope.values = [.ref .tuple ⟨1⟩, .ref .tuple ⟨1⟩, .ref .string ⟨0⟩] := rfl
  have hcount : ∀ k h, .ref k h ∈ sharedTuple.scope.values →
      sharedTuple.heap.refCount? (.ref k h) = some 2 ∧ sharedTuple.scope.values.count (.ref k h) ≤ 2 := by
    intro k h hmem
    simp only [hvalues, List.mem_cons, List.not_mem_nil, or_false, Value.ref.injEq] at hmem
    rcases hmem with ⟨rfl, rfl⟩ | ⟨rfl, rfl⟩ | ⟨rfl, rfl⟩ <;> exact ⟨rfl, by decide⟩
  obtain ⟨-, hgrows⟩ := @scope_growth_invisible sharedTuple fiveNames
    (fun k h hmem => ⟨2, (hcount k h hmem).1, by omega⟩) fun k h count hmem _ heq => by
      obtain ⟨htwo, hle⟩ := hcount k h hmem
      rw [heq, Option.some.injEq] at htwo
      have hmax : 4 ≤ Store.maxCount := by decide
      omega
  obtain ⟨wider, hrun, hsize, -, hold, hnew⟩ := hgrows (by decide)
  exact ⟨hvalues, wider, hrun, hsize, hold 1 (by decide), hnew 4 (by decide)⟩

end RefMachine
