import RefMachine.Proofs.Heap.Contents

/-!
# Calls of a heap

A heap may be called in any order and with any arguments. A handle may dangle or name a slot that never was, an object
may be made to hold itself, and a call that fails keeps what it changed before it failed, so no order of ownership can be
assumed of the heaps that come about.

What a call does to a well-formed heap is said once, in `HeapCall.run_ends`: the heap stays well formed, the objects that
are there before and after are the same, a shared text is shared for as long as its slot is live, and what the call answers
is new unless it was found.
-/

namespace RefMachine

/-- A call of an operation of the heap. -/
inductive HeapCall where
  | newString (text : String)
  | internString (text : String)
  | newTuple (items : List Value)
  | cons (head : Value) (tail : Handle)
  | newList (items : List Value)
  | newExpression (e : Expression)
  | retain (v : Value)
  | release (v : Value)

namespace HeapCall

/-- The answer is the value for the object of an allocation. -/
def allocate (k : Kind) (new : HeapM Handle) : HeapM (Option Value) := do
  return some (.ref k (← new))

def run : HeapCall → HeapM (Option Value)
  | newString text => allocate .string (Heap.newString text)
  | internString text => allocate .string (Heap.internString text)
  | newTuple items => allocate .tuple (Heap.newTuple items)
  | cons head tail => allocate .list (Heap.cons head tail)
  | newList items => allocate .list (Heap.newList items)
  | newExpression e => allocate .expression (Heap.newExpression e)
  | retain v => do
    Heap.retain v
    return none
  | release v => do
    Heap.release v
    return none

/-- The heap after a call, whether or not the call failed. -/
def after (call : HeapCall) (heap : Heap) : Heap :=
  endState (call.run heap)

/-- The calls that make no object, and their answers: the slot of a text that is shared already, and the empty list. -/
inductive Finds (heap : Heap) : HeapCall → Value → Prop where
  | shared {text : String} {h : Handle} (hlookup : heap.interned.lookup (contentHash text) = some h) :
    Finds heap (.internString text) (.ref .string h)
  | emptyList : Finds heap (.newList []) (.ref .list .sentinel)

end HeapCall

namespace Heap

variable {heap heap' heap'' : Heap} {k : Kind} {h : Handle} {v : Value}

/-- The heap after a sequence of calls. -/
def afterCalls (heap : Heap) (calls : List HeapCall) : Heap :=
  calls.foldl (fun heap call => call.after heap) heap

/-! ## Adding objects -/

/-- The object of the value is there only afterwards, and nobody refers to it yet. -/
def Places (heap : Heap) (v : Value) (heap' : Heap) : Prop :=
  ∃ k h x, v = .ref k h ∧ heap.get? k h = none ∧ heap'.slot? k h = some ⟨some x, 0⟩

theorem Extends.places (hext : heap.Extends heap') (hplaces : heap'.Places v heap'') : heap.Places v heap'' := by
  obtain ⟨k, h, x, rfl, hnone, hslot⟩ := hplaces
  refine ⟨k, h, x, rfl, Option.eq_none_iff_forall_ne_some.mpr fun y hy => ?_, hslot⟩
  rw [hext k h y hy] at hnone
  cases hnone

/-- Objects were added, or counts were changed, and no more. -/
structure Adds (heap heap' : Heap) : Prop where
  wellFormed : heap'.WellFormed
  extension : heap.Extends heap'
  interned_eq : heap'.interned = heap.interned

theorem WellFormed.adds (hw : heap.WellFormed) : heap.Adds heap :=
  ⟨hw, fun _ _ _ => id, rfl⟩

theorem Adds.trans (hadds : heap.Adds heap') (hadds' : heap'.Adds heap'') : heap.Adds heap'' where
  wellFormed := hadds'.wellFormed
  extension k h x hget := hadds'.extension k h x (hadds.extension k h x hget)
  interned_eq := hadds'.interned_eq.trans hadds.interned_eq

theorem insert_adds (hw : heap.WellFormed) (x : k.Content) :
    Ends (fun h heap' => heap.Adds heap' ∧ heap.Places (.ref k h) heap') (fun _ => heap.Adds) (insert k x heap) := by
  rcases insert_cases hw x with ⟨h, heap', hrun, hnone, hu, hw', htable⟩ | hrun
  · rw [hrun]
    have hext : heap.Extends heap' := hu.extension fun y hy => by simp [hnone] at hy
    exact ⟨⟨hw', hext, htable⟩, k, h, x, rfl, hnone, hu.slot?_self⟩
  · rw [hrun]
    exact hw.adds

theorem retain_adds (hw : heap.WellFormed) (v : Value) : EndsIn heap.Adds (retain v heap) := by
  rcases retain_cases hw v with ⟨-, hrun⟩ | ⟨k, h, x, count, heap', rfl, -, hslot, hrun, hu, hw', htable⟩ |
    ⟨k, h, rfl, -, hrun⟩ | ⟨k, h, rfl, -, hrun⟩
  · rw [hrun]
    exact hw.adds
  · rw [hrun]
    refine ⟨hw', hu.extension fun y hy => ?_, htable⟩
    rwa [get?_of_slot? hslot] at hy
  · rw [hrun]
    exact hw.adds
  · rw [hrun]
    exact hw.adds

theorem cons_adds (hw : heap.WellFormed) (head : Value) (tail : Handle) :
    Ends (fun h heap' => heap.Adds heap' ∧ heap.Places (.ref .list h) heap') (fun _ => heap.Adds)
      (cons head tail heap) := by
  refine Ends.bind_get ?_
  cases heap.lists.get? tail with
  | some cell => exact insert_adds hw (k := .list) ⟨head, tail⟩
  | none => exact hw.adds

theorem newList_adds (hw : heap.WellFormed) (items : List Value) :
    Ends (fun h heap' => heap.Adds heap' ∧
        (items = [] ∧ h = .sentinel ∧ heap' = heap ∨ heap.Places (.ref .list h) heap'))
      (fun _ => heap.Adds) (newList items heap) := by
  unfold newList
  induction items with
  | nil => exact ⟨hw.adds, .inl ⟨rfl, rfl, rfl⟩⟩
  | cons item items ih =>
    rw [List.foldrM_cons]
    refine ih.bind fun tail heap₁ hrest => ?_
    have hretain := retain_adds hrest.1.wellFormed (.ref .list tail)
    refine (hretain.imp fun _ => hrest.1.trans).bind fun _ heap₂ hadds => ?_
    refine (cons_adds hadds.wellFormed item tail).mono (fun h heap₃ hcons => ?_) fun _ _ => hadds.trans
    exact ⟨hadds.trans hcons.1, .inr (hadds.extension.places hcons.2)⟩

/-! ## Giving objects up -/

/-- Objects were given up, or counts were changed, and the table holds the shared texts that are left. -/
structure Drops (heap heap' : Heap) : Prop where
  wellFormed : heap'.WellFormed
  restriction : heap'.Extends heap
  interned_subset : heap'.interned ⊆ heap.interned
  interned : ∀ entry ∈ heap.interned, (heap'.get? .string entry.2).isSome → entry ∈ heap'.interned

theorem WellFormed.drops (hw : heap.WellFormed) : heap.Drops heap :=
  ⟨hw, fun _ _ _ => id, List.Subset.refl _, fun _ hentry _ => hentry⟩

theorem Drops.trans (hdrops : heap.Drops heap') (hdrops' : heap'.Drops heap'') : heap.Drops heap'' where
  wellFormed := hdrops'.wellFormed
  restriction k h x hget := hdrops.restriction k h x (hdrops'.restriction k h x hget)
  interned_subset := List.Subset.trans hdrops'.interned_subset hdrops.interned_subset
  interned entry hentry hlive := by
    obtain ⟨text, hget⟩ := Option.isSome_iff_exists.mp hlive
    have hlive' : (heap'.get? .string entry.2).isSome := by
      rw [hdrops'.restriction _ _ _ hget, Option.isSome_some]
    exact hdrops'.interned entry (hdrops.interned entry hentry hlive') hlive

theorem releaseOne_drops (hw : heap.WellFormed) (v : Value) : EndsIn heap.Drops (releaseOne v heap) := by
  have hrestrict := releaseOne_extends v heap
  rcases releaseOne_cases hw v with ⟨-, hrun⟩ | ⟨k, h, x, heap', rfl, -, hslot, hrun, hu, hw', htable⟩ |
    ⟨k, h, x, count, heap', rfl, -, hslot, hrun, hu, hw', htable⟩ | ⟨k, h, x, rfl, -, -, hrun⟩ | ⟨k, h, rfl, -, hrun⟩
  · rw [hrun]
    exact hw.drops
  · rw [hrun]
    refine ⟨hw', hrestrict.of_ok hrun, ?_, fun entry hentry hlive => ?_⟩
    · rw [htable]
      exact interned_forgetContent_subset k h x heap
    · rw [htable]
      refine mem_interned_forgetContent hw.interned_nodup hentry (fun heq => ?_) x
      cases heq
      simp [hu.get?_self] at hlive
  · rw [hrun]
    refine ⟨hw', hrestrict.of_ok hrun, ?_, fun entry hentry _ => ?_⟩
    · rw [htable]
      exact List.Subset.refl _
    · rw [htable]
      exact hentry
  · rw [hrun]
    exact hw.drops
  · rw [hrun]
    exact hw.drops

theorem release_drops (hw : heap.WellFormed) (v : Value) : EndsIn heap.Drops (release v heap) := by
  refine releaseAll_endsIn (fun v heap' hdrops => ?_) [v] heap hw.drops
  exact (releaseOne_drops hdrops.wellFormed v).imp fun _ => hdrops.trans

end Heap

/-! ## What any call does -/

namespace HeapCall

variable {heap heap' : Heap} {k : Kind} {h : Handle} {call : HeapCall} {v : Value}

/-- What a call may do to a heap: it adds objects or gives some up, takes no live text out of the table, and puts only
the text that it shares into the table, in a slot that was not live. -/
structure Follows (call : HeapCall) (heap heap' : Heap) : Prop where
  wellFormed : heap'.WellFormed
  contents : heap.Extends heap' ∨ heap'.Extends heap
  interned : ∀ entry ∈ heap.interned, (heap'.get? .string entry.2).isSome → entry ∈ heap'.interned
  shared : ∀ entry ∈ heap'.interned, entry ∈ heap.interned ∨
    ∃ text, call = .internString text ∧ entry.1 = contentHash text ∧ heap.get? .string entry.2 = none ∧
      heap'.get? .string entry.2 = some text

theorem Follows.get?_eq (hfollows : call.Follows heap heap') {x x' : k.Content} (hget : heap.get? k h = some x)
    (hget' : heap'.get? k h = some x') : x' = x := by
  rcases hfollows.contents with hext | hext
  · rw [hext k h x hget] at hget'
    exact (Option.some.inj hget').symm
  · rw [hext k h x' hget'] at hget
    exact Option.some.inj hget

theorem follows_of_adds (hadds : heap.Adds heap') : call.Follows heap heap' where
  wellFormed := hadds.wellFormed
  contents := .inl hadds.extension
  interned entry hentry _ := by
    rw [hadds.interned_eq]
    exact hentry
  shared entry hentry := by
    rw [hadds.interned_eq] at hentry
    exact .inl hentry

theorem follows_of_drops (hdrops : heap.Drops heap') : call.Follows heap heap' where
  wellFormed := hdrops.wellFormed
  contents := .inr hdrops.restriction
  interned := hdrops.interned
  shared _ hentry := .inl (hdrops.interned_subset hentry)

/-- What a call may answer: a value that it found, and then it left the heap alone, or one for a new object. -/
def Answers (call : HeapCall) (heap : Heap) (answer : Option Value) (heap' : Heap) : Prop :=
  ∀ v ∈ answer, Finds heap call v ∧ heap' = heap ∨ heap.Places v heap'

theorem answers_of_places (hplaces : heap.Places v heap') : call.Answers heap (some v) heap' := by
  intro v' hv
  rw [← Option.some.inj hv]
  exact .inr hplaces

theorem answers_of_finds (hfinds : Finds heap call v) : call.Answers heap (some v) heap := by
  intro v' hv
  rw [← Option.some.inj hv]
  exact .inl ⟨hfinds, rfl⟩

theorem allocate_ends {new : HeapM Handle} {good : Option Value → Heap → Prop} {bad : HeapError → Heap → Prop}
    (hnew : Ends (fun h heap' => good (some (.ref k h)) heap') bad (new heap)) :
    Ends good bad (allocate k new heap) :=
  hnew.bind fun _ _ hgood => hgood

theorem allocate_ends_of_places {new : HeapM Handle}
    (hnew : Ends (fun h heap' => heap.Adds heap' ∧ heap.Places (.ref k h) heap') (fun _ => heap.Adds) (new heap)) :
    Ends (fun answer heap' => call.Follows heap heap' ∧ call.Answers heap answer heap') (fun _ => call.Follows heap)
      (allocate k new heap) := by
  apply allocate_ends
  refine hnew.mono (fun h heap' hmade => ?_) fun _ _ => follows_of_adds
  exact ⟨follows_of_adds hmade.1, answers_of_places hmade.2⟩

/-- A heap call changes the heap as `Follows` says, also where it fails, and answers as `Answers` says. -/
theorem run_ends (hw : heap.WellFormed) (call : HeapCall) :
    Ends (fun answer heap' => call.Follows heap heap' ∧ call.Answers heap answer heap') (fun _ => call.Follows heap)
      (call.run heap) := by
  cases call with
  | newString text => exact allocate_ends_of_places (Heap.insert_adds hw (k := .string) text)
  | newTuple items => exact allocate_ends_of_places (Heap.insert_adds hw (k := .tuple) items)
  | newExpression e => exact allocate_ends_of_places (Heap.insert_adds hw (k := .expression) e)
  | cons head tail => exact allocate_ends_of_places (Heap.cons_adds hw head tail)
  | newList items =>
    apply allocate_ends
    refine (Heap.newList_adds hw items).mono (fun h heap' hmade => ?_) fun _ _ => follows_of_adds
    obtain ⟨hadds, ⟨rfl, rfl, rfl⟩ | hplaces⟩ := hmade
    · exact ⟨follows_of_adds hadds, answers_of_finds .emptyList⟩
    · exact ⟨follows_of_adds hadds, answers_of_places hplaces⟩
  | internString text =>
    apply allocate_ends
    rcases Heap.internString_cases hw text with ⟨h, hlookup, hrun⟩ | ⟨h, heap', hrun, hnone, hu, hw', htable⟩ | hrun
    · rw [hrun]
      exact ⟨follows_of_adds hw.adds, answers_of_finds (.shared hlookup)⟩
    · rw [hrun]
      have hext : heap.Extends heap' := hu.extension fun y hy => by simp [hnone] at hy
      refine ⟨⟨hw', .inl hext, fun entry hentry _ => ?_, fun entry hentry => ?_⟩,
        answers_of_places ⟨.string, h, text, rfl, hnone, hu.slot?_self⟩⟩
      · rw [htable]
        exact List.mem_cons_of_mem _ hentry
      · rw [htable, List.mem_cons] at hentry
        rcases hentry with rfl | hentry
        · exact .inr ⟨text, rfl, rfl, hnone, hu.get?_self⟩
        · exact .inl hentry
    · rw [hrun]
      exact follows_of_adds hw.adds
  | retain v =>
    refine ((Heap.retain_adds hw v).imp fun _ => follows_of_adds).bind fun _ heap' hfollows => ⟨hfollows, ?_⟩
    simp [Answers]
  | release v =>
    refine ((Heap.release_drops hw v).imp fun _ => follows_of_drops).bind fun _ heap' hfollows => ⟨hfollows, ?_⟩
    simp [Answers]

theorem follows (hw : heap.WellFormed) (call : HeapCall) : call.Follows heap (call.after heap) :=
  EndsIn.endState ((run_ends hw call).mono (fun _ _ h => h.1) fun _ _ h => h)

end HeapCall

namespace Heap

/-- A heap stays well formed whatever calls are made of it, also those that fail. -/
theorem WellFormed.afterCalls {heap : Heap} (hw : heap.WellFormed) (calls : List HeapCall) :
    (heap.afterCalls calls).WellFormed := by
  induction calls generalizing heap with
  | nil => exact hw
  | cons call calls ih => exact ih (call.follows hw).wellFormed

/-- The heap that a sequence of calls makes of a new one. -/
def ofCalls (calls : List HeapCall) : Heap :=
  empty.afterCalls calls

theorem ofCalls_append (calls later : List HeapCall) : ofCalls (calls ++ later) = (ofCalls calls).afterCalls later :=
  List.foldl_append

theorem wellFormed_ofCalls (calls : List HeapCall) : (ofCalls calls).WellFormed :=
  wellFormed_empty.afterCalls calls

end Heap

end RefMachine
