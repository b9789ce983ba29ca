import RefMachine.Proofs.Heap.Contents

/-!
# Releasing by recursion

A release works off a list of references that are due. `releaseDeep` is the same release as one would first write it:
count one reference less and, if that was the last, call oneself for everything that the object held. The calls may be
nested to a given depth; a call beyond it has no answer, so that a recursion that runs forever has none at any depth.

The recursion ends on every heap, also on one whose objects hold themselves or slots that are not there, and leaves the
heap as the list does, also where it fails (`release_eq_recursive`). The references held in the heap bound both: a call
for what an object held sees a heap that holds fewer, and the list is worked off in no more turns than there are
references.
-/

namespace RefMachine

namespace Heap

variable {α β : Type} {heap heap' : Heap} {v : Value} {depth : Nat}

/-! ## The recursion -/

/-- A computation on a heap that may end without an answer. -/
abbrev Partial : Type → Type :=
  ExceptT HeapError (StateT Heap Option)

/-- An operation that answers on every heap. -/
def call (f : HeapM α) : Partial α :=
  fun heap => some (outcome (f heap), endState (f heap))

/-- Counts one reference less. The last one to a tuple releases its items, from the last to the first, and the last one
to a cell of a list releases the head and then the tail. The first error ends it all. -/
def releaseDeep : (depth : Nat) → Value → Partial Unit
  | 0, _ => fun _ => none
  | depth + 1, v => do
    match v with
    | .ref .string h =>
      match ← call (onStore .string (Store.release h)) with
      | some text => modify (forget h text)
      | none => pure ()
    | .ref .tuple h =>
      match ← call (onStore .tuple (Store.release h)) with
      | some (items : List Value) => items.reverse.forM (releaseDeep depth)
      | none => pure ()
    | .ref .list h =>
      match ← call (onStore .list (Store.release h)) with
      | some (cell : Cell) =>
        releaseDeep depth cell.head
        releaseDeep depth (.ref .list cell.tail)
      | none => pure ()
    | .ref .expression h =>
      let _ ← call (onStore .expression (Store.release h))
    | _ => pure ()

theorem call_apply (f : HeapM α) (heap : Heap) : call f heap = some (outcome (f heap), endState (f heap)) := rfl

theorem call_bind_of_ok {f : HeapM α} {a : α} (hf : f heap = .ok a heap') (g : α → Partial β) :
    (call f >>= g) heap = g a heap' := by
  simp only [bind, ExceptT.bind, ExceptT.mk, StateT.bind, call, hf, outcome, endState, ExceptT.bindCont, Option.bind]

theorem call_bind_of_error {f : HeapM α} {e : HeapError} (hf : f heap = .error e heap') (g : α → Partial β) :
    (call f >>= g) heap = some (.error e, heap') := by
  simp only [bind, ExceptT.bind, ExceptT.mk, StateT.bind, call, hf, outcome, endState, ExceptT.bindCont, Option.bind]
  rfl

theorem apply_bind_congr {x y : Partial α} (hxy : x heap = y heap) (g : α → Partial β) :
    (x >>= g) heap = (y >>= g) heap := by
  simp only [bind, ExceptT.bind, ExceptT.mk, StateT.bind, hxy]

theorem call_bind (f : HeapM α) (g : α → HeapM β) : call (f >>= g) = call f >>= fun a => call (g a) := by
  funext heap
  cases hf : f heap with
  | ok a heap' => rw [call_bind_of_ok hf, call_apply, bind_apply_of_ok hf, call_apply]
  | error e heap' =>
    rw [call_bind_of_error hf, call_apply, bind_apply_of_error hf]
    rfl

theorem releaseDeep_succ (depth : Nat) (v : Value) :
    releaseDeep (depth + 1) v = call (releaseOne v) >>= fun held => held.forM (releaseDeep depth) := by
  cases v with
  | error | boolean | integer | float | type | opcode => rfl
  | ref k h =>
    -- What is due is named once for all kinds in `Kind.references`, and by each kind for itself in the recursion.
    rw [releaseOne, releaseAt, call_bind, bind_assoc]
    cases k with
    | string | tuple | expression =>
      refine bind_congr fun freed => ?_
      cases freed <;> rfl
    | list =>
      refine bind_congr fun freed => ?_
      cases freed with
      | none => rfl
      | some cell =>
        change _ = releaseDeep depth cell.head >>= fun _ =>
          releaseDeep depth (.ref .list cell.tail) >>= fun _ => pure ()
        rw [bind_pure_unit]

/-! ## The list of references -/

theorem releaseAll_append_of_ok {pending : List Value} (hrun : releaseAll pending heap = .ok () heap')
    (rest : List Value) : releaseAll (pending ++ rest) heap = releaseAll rest heap' := by
  induction pending, heap using releaseAll.induct with
  | case1 heap =>
    rw [releaseAll] at hrun
    cases hrun
    rfl
  | case2 heap v pending held heap₁ hstep ih =>
    rw [releaseAll_of_ok hstep] at hrun
    rw [List.cons_append, releaseAll_of_ok hstep, ← List.append_assoc, ih hrun]
  | case3 heap v pending e heap₁ hstep =>
    rw [releaseAll_of_error hstep] at hrun
    cases hrun

theorem releaseAll_append_of_error {pending : List Value} {e : HeapError}
    (hrun : releaseAll pending heap = .error e heap') (rest : List Value) :
    releaseAll (pending ++ rest) heap = .error e heap' := by
  induction pending, heap using releaseAll.induct with
  | case1 heap =>
    rw [releaseAll] at hrun
    cases hrun
  | case2 heap v pending held heap₁ hstep ih =>
    rw [releaseAll_of_ok hstep] at hrun
    rw [List.cons_append, releaseAll_of_ok hstep, ← List.append_assoc, ih hrun]
  | case3 heap v pending e' heap₁ hstep =>
    rw [releaseAll_of_error hstep] at hrun
    rw [List.cons_append, releaseAll_of_error hstep, hrun]

theorem releaseAll_eq_forM (pending : List Value) (heap : Heap) :
    releaseAll pending heap = pending.forM release heap := by
  induction pending generalizing heap with
  | nil =>
    rw [releaseAll]
    rfl
  | cons v rest ih =>
    change releaseAll ([v] ++ rest) heap = (release v >>= fun _ => rest.forM release) heap
    cases hrun : release v heap with
    | ok _ heap' => rw [bind_apply_of_ok hrun, releaseAll_append_of_ok hrun, ih]
    | error e heap' => rw [bind_apply_of_error hrun, releaseAll_append_of_error hrun]

theorem release_eq (v : Value) : release v = releaseOne v >>= fun held => held.forM release := by
  funext heap
  cases hstep : releaseOne v heap with
  | ok held heap' =>
    rw [bind_apply_of_ok hstep, release, releaseAll_of_ok hstep, List.append_nil, releaseAll_eq_forM]
  | error e heap' => rw [bind_apply_of_error hstep, release, releaseAll_of_error hstep]

theorem heldReferences_releaseAll {pending : List Value} (hrun : releaseAll pending heap = .ok () heap') :
    heap'.heldReferences ≤ heap.heldReferences := by
  induction pending, heap using releaseAll.induct with
  | case1 heap =>
    rw [releaseAll] at hrun
    cases hrun
    exact Nat.le_refl _
  | case2 heap v rest held heap₁ hstep ih =>
    rw [releaseAll_of_ok hstep] at hrun
    have hheld := heldReferences_releaseOne hstep
    have hrest := ih hrun
    omega
  | case3 heap v rest e heap₁ hstep =>
    rw [releaseAll_of_error hstep] at hrun
    cases hrun

/-! ## Both are the same -/

theorem forM_releaseDeep (held : List Value) {heap : Heap}
    (hcalls : ∀ v (heap' : Heap), heap'.heldReferences ≤ heap.heldReferences →
      releaseDeep depth v heap' = call (release v) heap') :
    held.forM (releaseDeep depth) heap = call (held.forM release) heap := by
  induction held generalizing heap with
  | nil => rfl
  | cons v rest ih =>
    change (releaseDeep depth v >>= fun _ => rest.forM (releaseDeep depth)) heap =
      call (release v >>= fun _ => rest.forM release) heap
    rw [call_bind, apply_bind_congr (hcalls v heap (Nat.le_refl _))]
    cases hrun : release v heap with
    | error e heap' => rw [call_bind_of_error hrun, call_bind_of_error hrun]
    | ok _ heap' =>
      rw [call_bind_of_ok hrun, call_bind_of_ok hrun]
      have hle : heap'.heldReferences ≤ heap.heldReferences := heldReferences_releaseAll hrun
      exact ih fun u heap'' hle' => hcalls u heap'' (Nat.le_trans hle' hle)

/-- `releaseDeep` agrees with `release` at every depth beyond `heldReferences`, since each call takes out of the heap
what it calls for. -/
theorem releaseDeep_eq_call (v : Value) (hdepth : heap.heldReferences < depth) :
    releaseDeep depth v heap = call (release v) heap := by
  induction depth generalizing v heap with
  | zero => exact absurd hdepth (Nat.not_lt_zero _)
  | succ depth ih =>
    rw [releaseDeep_succ, release_eq, call_bind]
    cases hstep : releaseOne v heap with
    | error e heap' => rw [call_bind_of_error hstep, call_bind_of_error hstep]
    | ok held heap' =>
      rw [call_bind_of_ok hstep, call_bind_of_ok hstep]
      have hheld := heldReferences_releaseOne hstep
      cases held with
      | nil => rfl
      | cons w rest =>
        rw [List.length_cons] at hheld
        refine forM_releaseDeep (w :: rest) fun u heap'' hle => ?_
        exact ih u (by omega)

/-- The list is worked off from one heap to a result in so many turns, each of which takes the reference at the head. -/
inductive Turns : Nat → List Value → Heap → EStateM.Result HeapError Heap Unit → Prop where
  | done {heap : Heap} : Turns 0 [] heap (.ok () heap)
  | turn {n : Nat} {v : Value} {held rest : List Value} {heap heap' : Heap} {r : EStateM.Result HeapError Heap Unit}
    (hstep : releaseOne v heap = .ok held heap') (hrest : Turns n (held ++ rest) heap' r) :
    Turns (n + 1) (v :: rest) heap r
  | fail {v : Value} {rest : List Value} {heap heap' : Heap} {e : HeapError}
    (hstep : releaseOne v heap = .error e heap') : Turns 1 (v :: rest) heap (.error e heap')

/-- `releaseAll` takes at most one turn for each pending reference and each that the heap holds. -/
theorem releaseAll_turns (pending : List Value) (heap : Heap) :
    ∃ n ≤ pending.length + heap.heldReferences, Turns n pending heap (releaseAll pending heap) := by
  induction pending, heap using releaseAll.induct with
  | case1 heap =>
    rw [releaseAll]
    exact ⟨0, Nat.zero_le _, .done⟩
  | case2 heap v rest held heap' hstep ih =>
    obtain ⟨n, hn, hturns⟩ := ih
    have hheld := heldReferences_releaseOne hstep
    rw [List.length_append] at hn
    rw [releaseAll_of_ok hstep, List.length_cons]
    exact ⟨n + 1, by omega, .turn hstep hturns⟩
  | case3 heap v rest e heap' hstep =>
    rw [releaseAll_of_error hstep, List.length_cons]
    exact ⟨1, by omega, .fail hstep⟩

end Heap

/-- **The work list and the recursion.** On every heap `release` ends, in no more turns than there are references in the
heap and the one given up. At every depth beyond the number of references in the heap, `releaseDeep` ends with the same
answer or error, and leaves the same heap. -/
theorem release_eq_recursive (v : Value) (heap : Heap) :
    (∃ turns ≤ 1 + heap.heldReferences, Heap.Turns turns [v] heap (Heap.release v heap)) ∧
      ∀ depth > heap.heldReferences,
        Heap.releaseDeep depth v heap = some (outcome (Heap.release v heap), endState (Heap.release v heap)) :=
  ⟨Heap.releaseAll_turns [v] heap, fun _ hdepth => Heap.releaseDeep_eq_call v hdepth⟩

/-- A tuple that holds itself is released, and then found to be gone, by the list and by the recursion. The empty list
counts for two of the references held. -/
theorem release_eq_recursive_self_held :
    let heap : Heap :=
      { tuples := { slots := #[⟨some [], Store.pinnedCount⟩, ⟨some [.ref .tuple ⟨1⟩], 1⟩], hasSentinel := true } }
    heap.heldReferences = 3 ∧
      outcome (Heap.release (.ref .tuple ⟨1⟩) heap) = .error ⟨.tuple, .dangling ⟨1⟩⟩ ∧
      Heap.releaseDeep 4 (.ref .tuple ⟨1⟩) heap =
        some (outcome (Heap.release (.ref .tuple ⟨1⟩) heap), endState (Heap.release (.ref .tuple ⟨1⟩) heap)) := by
  intro heap
  have hheld : heap.heldReferences = 3 := by decide
  exact ⟨hheld, by decide +kernel, (release_eq_recursive (.ref .tuple ⟨1⟩) heap).2 4 (by omega)⟩

end RefMachine
