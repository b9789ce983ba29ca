import RefMachine.Proofs.Session

/-!
# Leak freedom

In a balanced machine whose heap is acyclic, the objects that are there are exactly those that can be reached from the
stack, the scope and the host (`live_iff_reachable`). Evaluation keeps both properties, so once its value is released
nothing is left that the program made and that nobody can reach (`evaluation_leak_free`). If it bound no variable, then
what can be reached is what it was before, so every slot holds and counts what it did before. A session that gives up
everything leaves an empty heap.
-/

namespace RefMachine

/-! ## Counting what is there -/

namespace Store

variable {α : Type} {s s' : Store α} {sentinel : Option α}

theorem sum_eq_of_getD {xs ys : List Nat} (heq : ∀ i : Nat, xs[i]?.getD 0 = ys[i]?.getD 0) : xs.sum = ys.sum := by
  induction xs generalizing ys with
  | nil =>
    symm
    refine List.sum_eq_zero fun y hy => ?_
    obtain ⟨i, hi, rfl⟩ := List.mem_iff_getElem.mp hy
    have hzero := heq i
    rw [List.getElem?_nil, List.getElem?_eq_getElem hi] at hzero
    exact hzero.symm
  | cons x xs ih =>
    cases ys with
    | nil =>
      refine List.sum_eq_zero fun y hy => ?_
      obtain ⟨i, hi, rfl⟩ := List.mem_iff_getElem.mp hy
      have hzero := heq i
      rwa [List.getElem?_nil, List.getElem?_eq_getElem hi] at hzero
    | cons y ys =>
      have hhead : x = y := heq 0
      have htail : xs.sum = ys.sum := ih fun i => heq (i + 1)
      rw [List.sum_cons, List.sum_cons, hhead, htail]

theorem weight_eq_of_get? (hs : s.WellFormed sentinel) (hs' : s'.WellFormed sentinel)
    (hget : ∀ h, s'.get? h = s.get? h) (measure : α → Nat) : s'.weight measure = s.weight measure := by
  have hslot : ∀ (s : Store α) (i : Nat), (s.slots.toList.map (Slot.weight measure))[i]?.getD 0 =
      ((s.slots[i]?.bind Slot.content).map measure).getD 0 := by
    intro s i
    rw [List.getElem?_map, Array.getElem?_toList]
    cases s.slots[i]? <;> rfl
  rw [weight_eq_sum, weight_eq_sum]
  refine sum_eq_of_getD fun i => ?_
  rw [hslot, hslot]
  by_cases hi : i < s.slots.size ∨ i < s'.slots.size
  · obtain ⟨h, rfl⟩ : ∃ h : Handle, h.index = i := hi.elim hs.exists_handle hs'.exists_handle
    exact congrArg (fun content => (content.map measure).getD 0) (hget h)
  · rw [not_or] at hi
    rw [Array.getElem?_eq_none (Nat.le_of_not_lt hi.1), Array.getElem?_eq_none (Nat.le_of_not_lt hi.2)]

theorem countP_le_one {p : Slot α → Bool} {slots : List (Slot α)}
    (hfirst : ∀ i slot, slots[i]? = some slot → p slot = true → i = 0) : slots.countP p ≤ 1 := by
  cases slots with
  | nil => exact Nat.zero_le _
  | cons slot rest =>
    have hrest : rest.countP p = 0 := by
      refine List.countP_eq_zero.mpr fun slot' hmem hp => ?_
      obtain ⟨i, hi, hget⟩ := List.mem_iff_getElem.mp hmem
      have hzero := hfirst (i + 1) slot' (by rw [List.getElem?_cons_succ, List.getElem?_eq_getElem hi, hget]) hp
      omega
    rw [List.countP_cons, hrest]
    split_ifs <;> omega

theorem WellFormed.liveCount_eq_zero (hs : s.WellFormed sentinel)
    (hdead : ∀ h, s.pins h = false → s.get? h = none) : s.liveCount = 0 := by
  have hpinned : ∀ i slot, s.slots.toList[i]? = some slot → slot.content.isSome = true →
      s.hasSentinel = true ∧ i = 0 := by
    intro i slot hslot hlive
    rw [Array.getElem?_toList] at hslot
    obtain ⟨h, rfl⟩ := hs.exists_handle (Array.getElem?_eq_some_iff.mp hslot).1
    have hpins : s.pins h = true := by
      by_contra hpins
      have hnone : s.get? h = none := hdead h (Bool.eq_false_iff.mpr hpins)
      rw [get?, hslot, Option.bind_some] at hnone
      rw [hnone] at hlive
      exact nomatch hlive
    obtain ⟨hsentinel, hh⟩ := Bool.and_eq_true_iff.mp hpins
    rw [Handle.isSentinel_iff.mp hh]
    exact ⟨hsentinel, rfl⟩
  rw [liveCount, ← Array.countP_toList]
  cases hsentinel : s.hasSentinel with
  | true =>
    have hle := countP_le_one fun i slot hslot hlive => (hpinned i slot hslot hlive).2
    rw [if_pos rfl]
    omega
  | false =>
    have hzero : s.slots.toList.countP (fun slot => slot.content.isSome) = 0 := by
      refine List.countP_eq_zero.mpr fun slot hmem hlive => ?_
      obtain ⟨i, hi, hget⟩ := List.mem_iff_getElem.mp hmem
      have hcontra := (hpinned i slot (by rw [List.getElem?_eq_getElem hi, hget]) hlive).1
      rw [hsentinel] at hcontra
      exact nomatch hcontra
    rw [hzero, Nat.zero_sub]

end Store

namespace Heap

variable {heap heap' : Heap} {roots : Multiset Value}

/-- An acyclic heap with exact counts and no roots is empty. -/
theorem totalLive_eq_zero (ha : heap.Accounts .exact 0) (hacyclic : heap.Acyclic) : heap.totalLive = 0 := by
  have hdead : ∀ k h, k.pins h = false → heap.get? k h = none := by
    intro k h hpins
    by_contra hget
    have hcounted : (Value.ref k h).Counted := hpins
    have hlive : heap.Live (.ref k h) := Option.isSome_iff_ne_none.mpr hget
    obtain ⟨u, hu, -⟩ := (ha.live_iff_reachable hacyclic hcounted).mp hlive
    exact absurd hu (Multiset.notMem_zero u)
  have hzero : ∀ k, heap.liveCount k = 0 := by
    intro k
    refine (ha.wellFormed.store k).liveCount_eq_zero fun h hpins => ?_
    exact hdead k h ((ha.wellFormed.pins_eq k h).symm.trans hpins)
  rw [totalLive, hzero, hzero, hzero, hzero]

/-- Two acyclic heaps with exact counts for the same roots agree in every slot, if one keeps what the roots reach in the
other. -/
theorem slots_eq (ha : heap.Accounts .exact roots) (ha' : heap'.Accounts .exact roots) (hacyclic : heap.Acyclic)
    (hacyclic' : heap'.Acyclic) (hkeeps : heap.Keeps heap' {w | w ∈ roots}) (k : Kind) (h : Handle) :
    heap'.get? k h = heap.get? k h ∧ heap'.counted (.ref k h) = heap.counted (.ref k h) := by
  have hget : ∀ k h, heap'.get? k h = heap.get? k h := by
    intro k h
    cases hpins : k.pins h with
    | true => rw [ha'.wellFormed.get?_of_pins hpins, ha.wellFormed.get?_of_pins hpins]
    | false =>
      have hcounted : (Value.ref k h).Counted := hpins
      by_cases hreach : heap.Reachable {w | w ∈ roots} (.ref k h)
      · exact hkeeps k h hreach
      · have hdead : ¬ heap.Live (.ref k h) := by
          rwa [ha.live_iff_reachable hacyclic hcounted]
        have hdead' : ¬ heap'.Live (.ref k h) := by
          rwa [ha'.live_iff_reachable hacyclic' hcounted, hkeeps.reachable_iff]
        rw [Option.not_isSome_iff_eq_none.mp hdead, Option.not_isSome_iff_eq_none.mp hdead']
  refine ⟨hget k h, ?_⟩
  cases hpins : k.pins h with
  | true => rw [counted_of_pins ha'.wellFormed hpins, counted_of_pins ha.wellFormed hpins]
  | false =>
    have hcounted : (Value.ref k h).Counted := hpins
    have hocc : heap'.occurrences (.ref k h) = heap.occurrences (.ref k h) := by
      have hweight : ∀ k measure, (heap'.store k).weight measure = (heap.store k).weight measure := fun k measure =>
        Store.weight_eq_of_get? (ha.wellFormed.store k) (ha'.wellFormed.store k) (hget k) measure
      simp only [occurrences, weight, hweight]
    rw [ha.counted_eq _ hcounted, ha'.counted_eq _ hcounted, hocc]

end Heap

/-! ## Evaluation -/

/-- A host that evaluates expressions and releases each value at once. In between it may widen the scope and register
texts. -/
inductive Round : Machine → Machine → Prop where
  | evaluate {m m₁ m' : Machine} {e : Expression} {v : Value} (hrun : Machine.evaluate e m = .ok v m₁)
    (hrelease : Machine.onHeap (Heap.release v) m₁ = .ok () m') : Round m m'
  | resize {m m' : Machine} {names : VariableNames} (hrun : Machine.resizeScope names m = .ok () m') : Round m m'
  | register (m : Machine) (text : String) : Round m { m with literals := (m.literals.register text).2 }

namespace Machine

variable {m m' : Machine} {host : Multiset Value}

/-- Nobody but the scope holds anything. -/
structure Idle (m : Machine) : Prop where
  accounts : m.Accounts .exact 0
  acyclic : m.heap.Acyclic
  stack_eq : m.stack = []

theorem Idle.round (hidle : m.Idle) (hround : Round m m') : m'.Idle := by
  cases hround with
  | evaluate hrun hrelease =>
    obtain ⟨ha₁, hstack, he⟩ := (evaluate_ends_free hidle.accounts _).of_ok hrun
    obtain ⟨m', hrelease', ha', hm', hheap⟩ := release_eq ha₁
    rw [hrelease] at hrelease'
    cases hrelease'
    refine ⟨ha', hheap.acyclic (he.heap.acyclic hidle.acyclic), ?_⟩
    rw [hm']
    exact hstack.trans hidle.stack_eq
  | resize hrun =>
    obtain ⟨hs, hstack, -⟩ := (resizeScope_ends hidle.accounts).of_ok hrun
    exact ⟨hs.accounts, hs.acyclic hidle.acyclic, hstack.trans hidle.stack_eq⟩
  | register text => exact ⟨hidle.accounts, hidle.acyclic, hidle.stack_eq⟩

theorem Idle.clearScope (hidle : m.Idle) : ∃ m', Machine.clearScope m = .ok () m' ∧ m'.heap.totalLive = 0 := by
  obtain ⟨m', hrun, ha, hvalues, hm', hacyclic⟩ := clearScope_eq hidle.accounts
  have hroots : m'.roots 0 = 0 := by
    rw [roots, hvalues, hm', hidle.stack_eq]
    rfl
  rw [Machine.Accounts, hroots] at ha
  exact ⟨m', hrun, Heap.totalLive_eq_zero ha (hacyclic hidle.acyclic)⟩

theorem roots_subset_held (m : Machine) (host : Multiset Value) :
    { w | w ∈ m.roots host } ⊆ m.held Set.univ m.stack host := by
  intro w hw
  rcases mem_roots.mp hw with hstack | hscope | hhost
  · exact .inl hstack
  · obtain ⟨i, b, hb, rfl⟩ := Scope.exists_of_mem_values hscope
    exact .inr (.inr ⟨i, Set.mem_univ i, b, hb, rfl⟩)
  · exact .inr (.inl hhost)

end Machine

/-- **Leak freedom.** Once the value of an evaluation is released, the live slots are those reached from the stack, the
scope and the host; and if no instruction took effect that binds a variable, every slot holds and counts what it did
before. A new machine that only evaluates, each value being released, has nothing left after `clearScope`. -/
theorem evaluation_leak_free (e : Expression) :
    (∀ m host v m', m.Balanced host → m.heap.Acyclic → Machine.evaluate e m = .ok v m' →
      ∃ m'', Machine.onHeap (Heap.release v) m' = .ok () m'' ∧
        (∀ w, w.Counted → (m''.heap.Live w ↔ m''.heap.Reachable { u | u ∈ m''.roots host } w)) ∧
        ((∀ i m₁, Machine.Visits e m i m₁ → m₁.Spares Set.univ i) →
          ∀ k h, m''.heap.get? k h = m.heap.get? k h ∧ m''.heap.counted (.ref k h) = m.heap.counted (.ref k h))) ∧
      ∀ literals limits m₁, Relation.ReflTransGen Round { literals := literals, limits := limits } m₁ →
        ∃ m₂, Machine.clearScope m₁ = .ok () m₂ ∧ m₂.heap.totalLive = 0 := by
  constructor
  · intro m host v m' hb hacyclic hrun
    have ha := Machine.balanced_iff.mp hb
    obtain ⟨ha', hstack, he⟩ := (Machine.evaluate_ends_free ha e).of_ok hrun
    obtain ⟨m'', hrelease, ha'', hm'', hheap⟩ := Machine.release_eq ha'
    have hacyclic'' := hheap.acyclic (he.heap.acyclic hacyclic)
    refine ⟨m'', hrelease, fun w hw => Heap.Accounts.live_iff_reachable ha'' hacyclic'' hw, fun hspares k h => ?_⟩
    obtain ⟨-, -, he⟩ := (Machine.evaluate_ends ha hspares).of_ok hrun
    have hvalues : m'.scope.values = m.scope.values :=
      Scope.values_eq_of_binding? he.size_eq fun i => he.binding_eq i (Set.mem_univ i)
    have hroots : m'.roots host = m.roots host := by
      rw [Machine.roots, hstack, hvalues, Machine.roots]
    have hroots' : m''.roots host = m.roots host := by
      rw [hm'']
      exact hroots
    rw [Machine.Accounts, hroots'] at ha''
    rw [hroots] at hheap
    have hkeeps := (he.heap.keeps.mono (m.roots_subset_held host)).trans hheap.keeps
    exact Heap.slots_eq ha ha'' hacyclic hacyclic'' hkeeps k h
  · intro literals limits m₁ hrounds
    have hidle : m₁.Idle := by
      induction hrounds with
      | refl => exact ⟨Machine.balanced_iff.mp (Machine.balanced_new literals limits), Heap.acyclic_empty, rfl⟩
      | tail _ hround ih => exact ih.round hround
    exact hidle.clearScope

/-- A new machine that evaluates an expression for a tuple, which binds no variable. -/
theorem evaluation_leak_free_tuple : ∃ v m' m'',
    Machine.evaluate ⟨⟨0⟩, [.loadInteger 7, .newTuple 1]⟩ {} = .ok v m' ∧ v = .ref .tuple ⟨1⟩ ∧
      Machine.onHeap (Heap.release v) m' = .ok () m'' ∧ ∀ k h, m''.heap.get? k h = Heap.empty.get? k h := by
  obtain ⟨v, m', hrun, hv⟩ : ∃ v m',
      Machine.evaluate ⟨⟨0⟩, [.loadInteger 7, .newTuple 1]⟩ {} = .ok v m' ∧ v = .ref .tuple ⟨1⟩ := ⟨_, _, rfl, rfl⟩
  have hactions : ∀ i ∈ [Instruction.loadInteger 7, .newTuple 1], ∀ (m : Machine) action, m.resolve i = .ok action →
      action.Pushing := by
    intro i hi m action hresolve
    simp only [List.mem_cons, List.not_mem_nil, or_false] at hi
    rcases hi with rfl | rfl
    · cases hresolve
      trivial
    · change (if m.frame.length < 1 then _ else _) = _ at hresolve
      split_ifs at hresolve
      · cases hresolve
      · cases hresolve
        trivial
  obtain ⟨m'', hrelease, -, hslots⟩ :=
    (evaluation_leak_free _).1 _ _ _ _ (Machine.balanced_new {} {}) Heap.acyclic_empty hrun
  refine ⟨v, m', m'', hrun, hv, hrelease, fun k h => (hslots ?_ k h).1⟩
  rintro i m₁ (hcomes | ⟨hcomes, hresolve, -, -⟩)
  · intro v index mutability hresolve
    exact (hactions i hcomes.mem m₁ _ hresolve).elim
  · exact (hactions _ hcomes.mem _ _ hresolve).elim

end RefMachine
