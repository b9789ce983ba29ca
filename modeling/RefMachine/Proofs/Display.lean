import RefMachine.Proofs.Heap.Rendering
import RefMachine.Proofs.Session

/-!
# Whatever is held can be displayed

The steps of a session are taken here with all the ways in which they may go wrong (`Act`): operations fail half-way,
what they had taken over is lost, and objects are made that nobody refers to. Even so no step closes a cycle, although
released slots are used again, and what the host holds stays safe (`Act.lapses`, `Acts.lapses`). Hence all that a value
reaches is there, the value unfolds to a tree, and its text is the text of the tree.
-/

namespace RefMachine

/-- A step of a session in which any operation may fail. An operation that may do so is given with the state that it
leaves in either case. -/
inductive Act : Machine × Multiset Value → Machine × Multiset Value → Prop where
  | attempt {s s' : Machine × Multiset Value} (hattempt : Attempt s s') : Act s s'
  /-- The new object, if there is one, is nobody's yet. -/
  | allocate {k : Kind} {taken : Multiset Value} {new : HeapM Handle} (hmakes : Makes k taken new) (m : Machine)
    (host : Multiset Value) : Act (m, taken + host) (endState (Machine.onHeap new m), host)
  /-- A reference to any object that there is. -/
  | adopt {m m' : Machine} {v : Value} (hlive : m.heap.Live v)
    (hrun : Machine.onHeap (Heap.retain v) m = .ok () m') (host : Multiset Value) : Act (m, host) (m', v ::ₘ host)
  | pack (arity : Nat) (m : Machine) (host : Multiset Value) :
    Act (m, host) (endState (Machine.packTuple arity m), host)
  | resize (names : VariableNames) (m : Machine) (host : Multiset Value) :
    Act (m, host) (endState (Machine.resizeScope names m), host)
  | dropDiagnostics (m : Machine) (host : Multiset Value) :
    Act (m, host) (endState (Machine.takeDiagnostics m), host)

abbrev Acts : Machine × Multiset Value → Machine × Multiset Value → Prop :=
  Relation.ReflTransGen Act

variable {m : Machine} {host : Multiset Value} {s s' : Machine × Multiset Value}

theorem Act.lapses (hact : Act s s') (hsafe : s.1.Safe s.2) : Machine.Lapses s'.2 s.1 s'.1 := by
  cases hact with
  | attempt hattempt => exact hattempt.lapses hsafe
  | @allocate k taken new hmakes m host =>
    have ha := hsafe.accounts
    rw [Machine.Accounts, Machine.roots_add] at ha
    have hends : EndsIn (Machine.Lapses host m) (Machine.onHeap new m) := by
      refine Machine.onHeap_ends ((hmakes.made ha).mono ?_ fun _ _ => Machine.lapses_of_heap)
      rintro h heap' ⟨ha', -, hgrows⟩
      exact ⟨ha'.safe, hgrows.acyclic⟩
    exact hends.endState
  | adopt hlive hrun =>
    have hs := (Machine.retain_ends (Heap.Accounts.excuse hsafe.accounts _) hlive).of_ok hrun
    exact ⟨hs.accounts.safe, hs.acyclic⟩
  | pack arity m host =>
    have hends : EndsIn (Machine.Lapses host m) (Machine.packTuple arity m) :=
      (Machine.packTuple_ends hsafe.accounts).mono (fun h m' hs => ⟨hs.1.accounts.safe, hs.1.acyclic⟩) fun _ _ => id
    exact hends.endState
  | resize names m host =>
    have hends : EndsIn (Machine.Lapses host m) (Machine.resizeScope names m) :=
      (Machine.resizeScope_ends hsafe.accounts).mono (fun _ m' hs => ⟨hs.1.accounts.safe, hs.1.acyclic⟩) fun _ _ => id
    exact hends.endState
  | dropDiagnostics m host =>
    have hends : EndsIn (Machine.Lapses host m) (Machine.takeDiagnostics m) :=
      (Machine.takeDiagnostics_ends hsafe.accounts).mono (fun _ m' hs => hs.lapses) fun _ _ => id
    exact hends.endState

theorem Acts.lapses (hacts : Acts s s') (hsafe : s.1.Safe s.2) : Machine.Lapses s'.2 s.1 s'.1 := by
  induction hacts with
  | refl => exact ⟨hsafe, id⟩
  | tail _ hact ih =>
    have hlapses := hact.lapses ih.safe
    exact ⟨hlapses.safe, fun hacyclic => hlapses.acyclic (ih.acyclic hacyclic)⟩

/-- **Display of held values.** In every state of a session from a new machine the heap is acyclic, and a value on the
stack, in the scope or with the host reaches only live objects. It is displayed as the text of the tree that it unfolds
to, in which no handle occurs. -/
theorem held_values_displayed {literals : Literals} {limits : Limits}
    (hacts : Acts ({ literals := literals, limits := limits }, 0) (m, host)) :
    m.heap.Acyclic ∧ ∀ v, v ∈ m.stack ∨ v ∈ m.scope.values ∨ v ∈ host →
      (∀ w, m.heap.Reachable {v} w → m.heap.Live w) ∧
      ∃ t, m.heap.Unfolds v t ∧ m.heap.text v = t.text ∧ ∀ s, m.heap.Displays v s ↔ s = t.text := by
  have hnew := Machine.balanced_iff.mp (Machine.balanced_new literals limits)
  have hlapses : Machine.Lapses host { literals := literals, limits := limits } m := Acts.lapses hacts hnew.safe
  have hacyclic : m.heap.Acyclic := hlapses.acyclic Heap.acyclic_empty
  refine ⟨hacyclic, fun v hv => ?_⟩
  have hroot : ({v} : Set Value) ⊆ { w | w ∈ m.roots host } := by
    rintro w rfl
    exact Machine.mem_roots.mpr hv
  have hlive : ∀ w, m.heap.Reachable {v} w → m.heap.Live w :=
    fun w hreach => hlapses.safe.accounts.live_of_reachable (hreach.mono hroot)
  obtain ⟨t, hunfolds⟩ := hacyclic.exists_unfolds hlapses.safe.wellFormed hlive (.of_mem rfl)
  exact ⟨hlive, t, hunfolds, hunfolds.text_eq, hunfolds.displays_iff⟩

/-- A machine that knows a text with a quote in it, and has made and released a tuple. -/
def recycledTuple : Machine :=
  endState (Machine.onHeap (Heap.release (.ref .tuple ⟨1⟩)) (endState
    (Machine.evaluate ⟨⟨0⟩, [.loadInteger 7, .newTuple 1]⟩ { literals := ⟨Registry.empty.push "a\"b"⟩ })))

/-- The next evaluation takes the same slot, and ends with a fault that leaves the tuple on the stack. -/
def abandonedTuple : Machine :=
  endState (Machine.evaluate ⟨⟨0⟩, [.loadInteger 8, .newTuple 1, .loadString 9]⟩ recycledTuple)

/-- After that the host comes to hold a tuple of a number and a list. -/
def heldTuple : Machine :=
  endState (Machine.evaluate ⟨⟨0⟩, [.listEmpty, .loadString 0, .listAdd, .loadInteger 9, .newTuple 2]⟩ abandonedTuple)

/-- What was left on the stack and what the host holds are displayed, the one from a slot that was used before. -/
theorem held_values_displayed_recycled :
    Acts ({ literals := ⟨Registry.empty.push "a\"b"⟩ }, 0) (heldTuple, {.ref .tuple ⟨2⟩}) ∧
      heldTuple.heap.Acyclic ∧ heldTuple.stack = [.ref .tuple ⟨1⟩] ∧
      (∀ s, heldTuple.heap.Displays (.ref .tuple ⟨1⟩) s ↔ s = "(8)") ∧
      ∀ s, heldTuple.heap.Displays (.ref .tuple ⟨2⟩) s ↔ s = "(9,[\"a\"\"b\"])" := by
  have hmake : Act ({ literals := ⟨Registry.empty.push "a\"b"⟩ }, 0) (_, .ref .tuple ⟨1⟩ ::ₘ 0) :=
    .attempt (.step (.evaluate (e := ⟨⟨0⟩, [.loadInteger 7, .newTuple 1]⟩) (eq_ok_of_outcome (by decide +kernel))))
  have hrelease : Act (_, .ref .tuple ⟨1⟩ ::ₘ 0) (recycledTuple, 0) :=
    .attempt (.step (.release (eq_ok_of_outcome (by decide +kernel))))
  have hfault : Act (recycledTuple, 0) (abandonedTuple, 0) :=
    .attempt (.fault (f := .unknownLiteral 9) (eq_error_of_outcome (by decide +kernel)))
  have hhold : Act (abandonedTuple, 0) (heldTuple, .ref .tuple ⟨2⟩ ::ₘ 0) :=
    .attempt (.step (.evaluate (eq_ok_of_outcome (by decide +kernel))))
  have hacts := (((Relation.ReflTransGen.single hmake).tail hrelease).tail hfault).tail hhold
  obtain ⟨hacyclic, hdisplays⟩ := @held_values_displayed _ _ _ {} hacts
  have hstack : heldTuple.stack = [.ref .tuple ⟨1⟩] := by decide +kernel
  obtain ⟨-, t, -, htext, hleft⟩ := hdisplays (.ref .tuple ⟨1⟩) (.inl (by simp [hstack]))
  obtain ⟨-, t', -, htext', hheld⟩ := hdisplays (.ref .tuple ⟨2⟩) (.inr (.inr (Multiset.mem_cons_self _ _)))
  have heq : t.text = "(8)" := htext.symm.trans (by decide +kernel)
  have heq' : t'.text = "(9,[\"a\"\"b\"])" := htext'.symm.trans (by decide +kernel)
  rw [heq] at hleft
  rw [heq'] at hheld
  exact ⟨hacts, hacyclic, hstack, hleft, hheld⟩

end RefMachine
