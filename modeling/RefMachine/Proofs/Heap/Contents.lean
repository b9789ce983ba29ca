import RefMachine.Proofs.Heap.Slots

/-!
# What the objects of a heap contain

No operation on a heap changes an object: retaining and releasing references leaves every object as it is or gives it up
(`retain_extends`, `releaseAll_extends`), and the only new contents are those of the one object that an operation makes
(`maintains_insert`). So what every object has, all of them keep, as long as the new ones have it (`Maintains`): a heap
without error values in its objects stays without, if none are put in (`Clears`).
-/

namespace RefMachine

namespace Store

variable {α : Type} {s s' : Store α} {h h' : Handle} {new : Slot α} {x y : α}

theorem Update.get?_cases (hu : s.Update s' h new) (hget : s'.get? h' = some y) :
    s.get? h' = some y ∨ h' = h ∧ new.content = some y := by
  rw [get?_eq, hu.slot?_eq] at hget
  split_ifs at hget with heq
  · exact .inr ⟨heq, hget⟩
  · exact .inl hget

theorem get?_of_recount {count count' : Nat} {free : Fifo Handle} (hslot : s.slot? h = some ⟨some x, count⟩)
    (hget : get? { s with slots := s.slots.setIfInBounds h.index ⟨some x, count'⟩, free := free } h' = some y) :
    s.get? h' = some y := by
  rcases (update_set hslot ⟨some x, count'⟩ free).get?_cases hget with hold | ⟨rfl, hx⟩
  · exact hold
  · rw [get?_of_slot? hslot, ← hx]

theorem retain_contents (h : Handle) (s : Store α) :
    EndsIn (fun s' => ∀ h' y, s'.get? h' = some y → s.get? h' = some y) (retain h s) := by
  unfold retain
  split_ifs
  · exact fun _ _ => id
  · split
    · rename_i x count hslot
      split_ifs
      · exact fun h' y => get?_of_recount hslot
      · exact fun _ _ => id
    · exact fun _ _ => id

theorem release_contents (h : Handle) (s : Store α) :
    EndsIn (fun s' => ∀ h' y, s'.get? h' = some y → s.get? h' = some y) (release h s) := by
  unfold release
  split_ifs
  · exact fun _ _ => id
  · split
    · exact fun _ _ => id
    · rename_i x hslot
      intro h' y hget
      rcases (update_set hslot ⟨none, 0⟩ _).get?_cases hget with hold | ⟨-, hnone⟩
      · exact hold
      · cases hnone
    · rename_i x count hslot
      exact fun h' y => get?_of_recount hslot
    · exact fun _ _ => id

theorem insert_contents (x : α) (s : Store α) :
    EndsIn (fun s' => ∀ h' y, s'.get? h' = some y → s.get? h' = some y ∨ y = x) (insert x s) := by
  have hnew : ∀ {s' : Store α} {h : Handle}, s.Update s' h ⟨some x, 0⟩ →
      ∀ h' y, s'.get? h' = some y → s.get? h' = some y ∨ y = x := by
    intro s' h hu h' y hget
    exact (hu.get?_cases hget).imp_right fun hx => (Option.some.inj hx.2).symm
  unfold insert
  split
  · rename_i h free hpop
    cases hslot : s.slot? h with
    | some old => exact hnew (update_set hslot _ free)
    | none =>
      -- A queued slot past the end is never filled.
      have hsize : s.slots.size ≤ h.index := Array.getElem?_eq_none_iff.mp hslot
      intro h' y hget
      rw [Array.setIfInBounds_eq_of_size_le hsize] at hget
      exact .inl hget
  · split_ifs with hsize
    · exact hnew (update_push hsize _)
    · exact fun _ _ => .inl

end Store

namespace Heap

variable {heap heap' : Heap} {k : Kind} {h : Handle} {v : Value}

/-- The value is an item of a tuple or the head of a list. What the slot of the empty list has for a head is none. -/
inductive Contains (heap : Heap) : Value → Prop where
  | item {h : Handle} {items : List Value} {v : Value} (hget : heap.get? .tuple h = some items) (hv : v ∈ items) :
    Contains heap v
  | head {h : Handle} {cell : Cell} (hsentinel : h.isSentinel = false) (hget : heap.get? .list h = some cell) :
    Contains heap cell.head

theorem get?_setStore (heap : Heap) (k : Kind) (s : Store k.Content) (h : Handle) :
    (heap.setStore k s).get? k h = s.get? h := by
  rw [get?, store_setStore]

theorem get?_setStore_of_ne {k' : Kind} (hk : k' ≠ k) (heap : Heap) (s : Store k.Content) (h : Handle) :
    (heap.setStore k s).get? k' h = heap.get? k' h := by
  rw [get?, store_setStore_of_ne _ _ hk, get?]

theorem onStore_endsIn {α : Type} {f : EStateM SlotError (Store k.Content) α} {p : Heap → Prop}
    (hf : EndsIn (fun s => p (heap.setStore k s)) (f (heap.store k))) : EndsIn p (onStore k f heap) := by
  rw [onStore_eq]
  cases hrun : f (heap.store k) with
  | ok a s => exact hf.of_ok hrun
  | error e s => exact hf.of_error hrun

theorem extends_of_contents {s : Store k.Content} (hs : ∀ h y, s.get? h = some y → (heap.store k).get? h = some y) :
    (heap.setStore k s).Extends heap := by
  intro k' h' y hget
  by_cases hk : k' = k
  · subst hk
    rw [get?_setStore] at hget
    exact hs h' y hget
  · rwa [get?_setStore_of_ne hk] at hget

theorem retain_extends (v : Value) (heap : Heap) : EndsIn (·.Extends heap) (retain v heap) := by
  cases v with
  | error | boolean | integer | float | type | opcode => exact fun _ _ _ => id
  | ref k h =>
    exact onStore_endsIn ((Store.retain_contents h _).imp fun _ => extends_of_contents)

theorem get?_forgetContent (x : k.Content) (heap : Heap) (k' : Kind) (h' : Handle) :
    (heap.forgetContent k h x).get? k' h' = heap.get? k' h' :=
  congrArg (·.bind Slot.content) (slot?_forgetContent k h x heap k' h')

theorem releaseOne_extends (v : Value) (heap : Heap) : EndsIn (·.Extends heap) (releaseOne v heap) := by
  cases v with
  | error | boolean | integer | float | type | opcode => exact fun _ _ _ => id
  | ref k h =>
    rw [releaseOne, releaseAt_eq]
    have hcontents := Store.release_contents h (heap.store k)
    cases hrun : Store.release h (heap.store k) with
    | error e s => exact extends_of_contents (hcontents.of_error hrun)
    | ok freed s =>
      have hext := extends_of_contents (hcontents.of_ok hrun)
      cases freed with
      | none => exact hext
      | some x =>
        intro k' h' y hget
        rw [get?_forgetContent] at hget
        exact hext k' h' y hget

/-- What every `releaseOne` keeps, `releaseAll` keeps, also where it fails half-way. -/
theorem releaseAll_endsIn {p : Heap → Prop} (hstep : ∀ v heap, p heap → EndsIn p (releaseOne v heap))
    (pending : List Value) (heap : Heap) (hp : p heap) : EndsIn p (releaseAll pending heap) := by
  induction pending, heap using releaseAll.induct with
  | case1 heap =>
    rw [releaseAll]
    exact hp
  | case2 heap v rest held heap' hrun ih =>
    rw [releaseAll_of_ok hrun]
    exact ih ((hstep v heap hp).of_ok hrun)
  | case3 heap v rest e heap' hrun =>
    rw [releaseAll_of_error hrun]
    exact (hstep v heap hp).of_error hrun

theorem releaseAll_extends (pending : List Value) (heap : Heap) :
    EndsIn (·.Extends heap) (releaseAll pending heap) := by
  refine releaseAll_endsIn (fun v heap' hext => ?_) pending heap fun _ _ _ => id
  exact (releaseOne_extends v heap').imp fun _ hone k h x hget => hext k h x (hone k h x hget)

/-! ## What every object has -/

/-- Every object of the heap has the property. -/
def Every (p : (k : Kind) → Handle → k.Content → Prop) (heap : Heap) : Prop :=
  ∀ k h x, heap.get? k h = some x → p k h x

/-- The operation keeps the property of all objects, also where it fails. -/
def Maintains {α : Type} (p : (k : Kind) → Handle → k.Content → Prop) (f : HeapM α) : Prop :=
  ∀ heap : Heap, heap.Every p → EndsIn (Every p) (f heap)

section Maintains

variable {p : (k : Kind) → Handle → k.Content → Prop}

theorem Extends.every (hext : heap'.Extends heap) (hheap : heap.Every p) : heap'.Every p :=
  fun k h x hget => hheap k h x (hext k h x hget)

theorem maintains_retain (v : Value) : Maintains p (retain v) :=
  fun heap hheap => (retain_extends v heap).imp fun _ hext => hext.every hheap

theorem maintains_release (v : Value) : Maintains p (release v) :=
  fun heap hheap => (releaseAll_extends [v] heap).imp fun _ hext => hext.every hheap

theorem maintains_insert {x : k.Content} (hx : ∀ h, p k h x) : Maintains p (insert k x) := by
  intro heap hheap
  refine onStore_endsIn ((Store.insert_contents x (heap.store k)).imp fun s hs k' h y hget => ?_)
  by_cases hk : k' = k
  · subst hk
    rw [get?_setStore] at hget
    rcases hs h y hget with hold | rfl
    · exact hheap _ h y hold
    · exact hx h
  · rw [get?_setStore_of_ne hk] at hget
    exact hheap k' h y hget

theorem maintains_internString {text : String} (htext : ∀ h, p .string h text) : Maintains p (internString text) := by
  intro heap hheap
  refine Ends.bind_get ?_
  cases heap.interned.lookup (contentHash text) with
  | some h => exact hheap
  | none =>
    refine Ends.bind (maintains_insert htext heap hheap) fun h heap' hheap' => ?_
    exact Extends.every (fun k _ _ hget => by cases k <;> exact hget) hheap'

theorem maintains_cons {head : Value} {tail : Handle} (hcell : ∀ h, p .list h ⟨head, tail⟩) :
    Maintains p (cons head tail) := by
  intro heap hheap
  refine Ends.bind_get ?_
  cases heap.lists.get? tail with
  | none => exact hheap
  | some cell => exact maintains_insert hcell heap hheap

theorem maintains_newList {items : List Value} (hcell : ∀ item ∈ items, ∀ tail h, p .list h ⟨item, tail⟩) :
    Maintains p (newList items) := by
  intro heap hheap
  unfold newList
  induction items with
  | nil => exact hheap
  | cons item items ih =>
    rw [List.foldrM_cons]
    refine (ih fun item' hitem' => hcell item' (List.mem_cons_of_mem item hitem')).bind fun tail heap₁ hheap₁ => ?_
    refine (maintains_retain (.ref .list tail) heap₁ hheap₁).bind fun _ heap₂ hheap₂ => ?_
    exact maintains_cons (hcell item List.mem_cons_self tail) heap₂ hheap₂

end Maintains

/-! ## Error values -/

/-- A heap operation that keeps the objects free of error values. -/
def Clears {α : Type} (f : HeapM α) : Prop :=
  ∀ heap : Heap, ¬ heap.Contains .error → EndsIn (fun heap' => ¬ heap'.Contains .error) (f heap)

theorem not_contains_error_iff : ¬ heap.Contains .error ↔
    heap.Every fun k h x => (k = .list → h.isSentinel = false) → .error ∉ k.references x := by
  constructor
  · intro hclean k h x hget hsentinel herror
    cases k with
    | string | expression => exact absurd herror List.not_mem_nil
    | tuple => exact hclean (.item hget (List.mem_reverse.mp herror))
    | list =>
      rcases List.mem_cons.mp herror with hhead | htail
      · exact hclean (hhead ▸ .head (hsentinel rfl) hget)
      · cases List.mem_singleton.mp htail
  · intro hevery hcontains
    generalize herr : Value.error = v at hcontains
    cases hcontains with
    | item hget hv =>
      subst herr
      exact hevery _ _ _ hget (fun hk => by cases hk) (List.mem_reverse.mpr hv)
    | head hsentinel hget => exact hevery _ _ _ hget (fun _ => hsentinel) (herr ▸ List.mem_cons_self)

theorem Clears.of_maintains {α : Type} {f : HeapM α}
    (hf : Maintains (fun k h x => (k = .list → h.isSentinel = false) → .error ∉ k.references x) f) : Clears f :=
  fun heap hclean => (hf heap (not_contains_error_iff.mp hclean)).imp fun _ => not_contains_error_iff.mpr

theorem clears_retain (v : Value) : Clears (retain v) :=
  .of_maintains (maintains_retain v)

theorem clears_release (v : Value) : Clears (release v) :=
  .of_maintains (maintains_release v)

theorem clears_internString (text : String) : Clears (internString text) :=
  .of_maintains (maintains_internString fun _ _ => List.not_mem_nil)

theorem clears_newTuple {items : List Value} (hitems : .error ∉ items) : Clears (newTuple items) :=
  .of_maintains (maintains_insert fun _ _ hmem => hitems (List.mem_reverse.mp hmem))

theorem clears_newExpression (e : Expression) : Clears (newExpression e) :=
  .of_maintains (maintains_insert fun _ _ => List.not_mem_nil)

theorem clears_cons {head : Value} (hhead : head ≠ .error) (tail : Handle) : Clears (cons head tail) := by
  refine .of_maintains (maintains_cons fun h _ hmem => ?_)
  rcases List.mem_cons.mp hmem with heq | hmem
  · exact hhead heq.symm
  · cases List.mem_singleton.mp hmem

end Heap

end RefMachine
