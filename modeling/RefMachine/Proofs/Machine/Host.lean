import RefMachine.Proofs.Machine.Perform

/-!
# What the host does

The operations of a session besides evaluation, and what they do to the accounts. The host holds a multiset of values,
one reference to each. An operation takes its arguments out of the multiset, or adds its result. One that fails keeps
what the host still holds safe (`Lapses`).
-/

namespace RefMachine

namespace Heap

variable {heap heap' : Heap} {ledger : Ledger} {roots : Multiset Value}

theorem Accounts.consMessage {message : String} {tail : Handle}
    (ha : heap.Accounts ledger (.ref .list tail ::ₘ roots)) :
    Ends (fun cell heap' => heap'.Accounts ledger (.ref .list cell ::ₘ roots) ∧ heap.Grows ∅ heap')
      (fun _ => heap.Lapses roots) (Machine.consMessage message tail heap) := by
  have hle : roots ≤ .ref .list tail ::ₘ roots := Multiset.le_cons_self _ _
  refine bind_keep (made_of_newString ha message ∅) (fun _ _ hlapses => hlapses.mono hle) fun text heap₁ ha₁ hgrows₁ => ?_
  have hitem : heap₁.Accounts ledger (([.ref .string text] : List Value) + (.ref .list tail ::ₘ roots)) := by
    rwa [Multiset.coe_singleton, Multiset.singleton_add]
  refine bind_keep (made_of_newTuple hitem ∅) (fun _ _ hlapses => (hlapses.mono hle).of_grows hgrows₁)
    fun tuple heap₂ ha₂ hgrows₂ => ?_
  have hcons := (made_of_cons ha₂ ∅).mono (fun _ _ hmade => hmade.1)
    (ha₂.lapses_of_exhausted (hle.trans (Multiset.le_cons_self _ _)))
  refine bind_keep hcons (fun _ _ hlapses => hlapses.of_grows (hgrows₁.trans hgrows₂)) fun cell heap₃ ha₃ hgrows₃ => ?_
  exact ⟨ha₃, (hgrows₁.trans hgrows₂).trans hgrows₃⟩

end Heap

namespace Scope

variable {heap : Heap} {ledger : Ledger} {roots : Multiset Value} {scope : Scope}

theorem mapM_ends {α : Type} {f : α → HeapM Variable} {present : Heap → Prop} {xs : List α}
    (hf : ∀ a heap roots, heap.Accounts ledger roots → present heap →
      Ends (fun x heap' => heap'.Accounts ledger ((x.binding.map Binding.value).toList + roots) ∧ present heap')
        (fun _ heap' => heap'.Safe roots ∧ present heap') (f a heap))
    (ha : heap.Accounts ledger roots) (hpresent : present heap) :
    Ends (fun slots heap' => heap'.Accounts ledger
        ((slots.filterMap fun x => x.binding.map Binding.value : List Value) + roots) ∧ present heap')
      (fun _ heap' => heap'.Safe roots ∧ present heap') (xs.mapM f heap) := by
  induction xs generalizing heap roots with
  | nil =>
    refine ⟨?_, hpresent⟩
    change heap.Accounts ledger (([] : List Value) + roots)
    rwa [Multiset.coe_nil, zero_add]
  | cons a xs ih =>
    rw [List.mapM_cons]
    refine (hf a heap roots ha hpresent).bind ?_
    rintro x heap₁ ⟨ha₁, hpresent₁⟩
    refine ((ih ha₁ hpresent₁).mono (fun _ _ hgood => hgood) fun _ heap₂ hbad => ?_).bind ?_
    · exact ⟨hbad.1.accounts.safe_of_le (Multiset.le_add_left _ _), hbad.2⟩
    · rintro slots heap₂ ⟨ha₂, hpresent₂⟩
      refine ⟨?_, hpresent₂⟩
      rwa [coe_filterMap_cons, add_comm (Multiset.ofList _), add_assoc]

/-- `Scope.copy` retains each value once more and changes no object. -/
theorem copy_ends {names : VariableNames} (ha : heap.Accounts ledger roots) (hlive : ∀ v ∈ scope.values, heap.Live v) :
    Ends (fun wider heap' => heap'.Accounts ledger (wider.values + roots) ∧ heap.SameObjects heap')
      (fun _ heap' => heap'.Safe roots ∧ heap.SameObjects heap') (scope.copy names heap) := by
  unfold copy
  refine (@mapM_ends heap ledger roots _ _ heap.SameObjects _ ?_ ha fun _ _ => rfl).bind fun slots heap' hgood => hgood
  rintro ⟨name, index⟩ heap₁ roots ha hsame
  dsimp only
  cases hb : scope.binding? index with
  | none =>
    refine ⟨?_, hsame⟩
    change heap₁.Accounts ledger (([] : List Value) + roots)
    rwa [Multiset.coe_nil, zero_add]
  | some b =>
    have hretain := (ha.excuse b.value).retain (hsame.live (hlive _ (value_mem_values hb)))
    refine (hretain.mono (fun _ _ hgood => hgood) ?_).bind ?_
    · rintro e heap₂ ⟨-, rfl⟩
      exact ⟨ha.safe, hsame⟩
    · rintro - heap₂ ⟨ha', hsame', -⟩
      refine ⟨?_, fun k h => (hsame' k h).trans (hsame k h)⟩
      change heap₂.Accounts ledger (([b.value] : List Value) + roots)
      rwa [Multiset.coe_singleton, Multiset.singleton_add]

theorem copy_bindings (scope : Scope) (names : VariableNames) (heap : Heap) :
    Ends (fun wider _ => ∀ i < names.size, wider.binding? i = scope.binding? i) (fun _ _ => True)
      (scope.copy names heap) := by
  unfold copy
  refine (@Ends.mapM _ _ _ _ (fun (place : String × Nat) (x : Variable) => x.binding = scope.binding? place.2) _ ?_ _
    heap).bind fun slots heap' hslots i hi => ?_
  · rintro ⟨name, index⟩ heap₁
    dsimp only
    cases scope.binding? index with
    | none => exact rfl
    | some b =>
      have hretain : Ends (fun _ _ => True) (fun _ _ => True) (Heap.retain b.value heap₁) :=
        .of_forall (fun _ _ => trivial) (fun _ _ => trivial) _
      exact hretain.bind fun _ _ _ => rfl
  · obtain ⟨hlength, hget⟩ := List.forall₂_iff_get.mp hslots
    have hplace : i < names.registry.texts.toList.zipIdx.length := by
      rw [List.length_zipIdx, Array.length_toList]
      exact hi
    have hbinding := hget i hplace (hlength ▸ hplace)
    change slots.toArray[i]?.bind Variable.binding = _
    rw [List.getElem?_toArray, List.getElem?_eq_getElem (hlength ▸ hplace), Option.bind_some]
    simpa using hbinding

end Scope

namespace Machine

variable {m m' : Machine} {ledger : Ledger} {host : Multiset Value} {v : Value}

/-- The references are accounted for, and no cycle was closed. -/
structure Settles (ledger : Ledger) (host : Multiset Value) (m m' : Machine) : Prop where
  accounts : m'.Accounts ledger host
  acyclic : m.heap.Acyclic → m'.heap.Acyclic

/-- What an operation that failed leaves behind: the host is safe, and no cycle was closed. -/
structure Lapses (host : Multiset Value) (m m' : Machine) : Prop where
  safe : m'.Safe host
  acyclic : m.heap.Acyclic → m'.heap.Acyclic

theorem lapses_of_heap {heap' : Heap} (hlapses : m.heap.Lapses (m.roots host) heap') :
    Lapses host m { m with heap := heap' } :=
  ⟨hlapses.safe, hlapses.acyclic⟩

theorem Settles.lapses (hs : Settles ledger (v ::ₘ host) m m') : Lapses host m m' := by
  refine ⟨?_, hs.acyclic⟩
  have ha := hs.accounts
  rw [Machine.Accounts, roots_cons] at ha
  exact ha.safe_of_le (Multiset.le_cons_self _ _)

/-! ## Objects -/

theorem keep_ends {k : Kind} {new : HeapM Handle} {texts : Set String}
    (hnew : Ends (Heap.Accounts.Made texts m.heap ledger (m.roots host) k) (fun _ => m.heap.Lapses (m.roots host))
      (new m.heap)) :
    Ends (fun v => Settles ledger (v ::ₘ host) m) (fun _ => Lapses host m) (onHeap (Heap.keep k new) m) := by
  refine onHeap_ends ((Heap.Accounts.keep hnew).mono ?_ fun _ _ => lapses_of_heap)
  rintro v heap' ⟨ha, hgrows⟩
  refine ⟨?_, hgrows.acyclic⟩
  rw [Machine.Accounts, roots_cons]
  exact ha

theorem release_eq (ha : m.Accounts ledger (v ::ₘ host)) :
    ∃ m', onHeap (Heap.release v) m = .ok () m' ∧ m'.Accounts ledger host ∧
      m' = { m with heap := m'.heap } ∧ m.heap.Evolves ∅ { w | w ∈ m.roots host } m'.heap := by
  rw [Machine.Accounts, roots_cons] at ha
  obtain ⟨heap', hrelease, ha', hkeeps, hshrinks⟩ := ha.release
  refine ⟨{ m with heap := heap' }, ?_, ha', rfl, hshrinks.evolves hkeeps⟩
  rw [onHeap_eq, hrelease]

theorem retain_ends (ha : m.Accounts (ledger.excuse v) host) (hlive : m.heap.Live v) :
    Ends (fun _ => Settles ledger (v ::ₘ host) m) (fun _ _ => True) (onHeap (Heap.retain v) m) := by
  refine onHeap_ends ((Heap.Accounts.retain ha hlive).mono ?_ fun _ _ _ => trivial)
  rintro - heap' ⟨ha', hsame, -⟩
  refine ⟨?_, fun hacyclic => hacyclic.of_subset hsame.restriction.children_subset⟩
  rw [Machine.Accounts, roots_cons]
  exact ha'

theorem Accounts.hold (ha : m.Accounts ledger host) (hv : ¬ v.Counted) : m.Accounts ledger (v ::ₘ host) := by
  rw [Machine.Accounts, roots_cons]
  exact Heap.Accounts.cons_of_not_counted ha hv

theorem packTuple_ends {arity : Nat} (ha : m.Accounts ledger host) :
    Ends (fun h m' => Settles (ledger.excuse (.ref .tuple h)) host m m' ∧ m'.heap.Live (.ref .tuple h))
      (fun _ => Lapses host m) (packTuple arity m) := by
  refine Ends.bind_get ?_
  split_ifs
  · exact ⟨ha.safe, id⟩
  · have hitems : m.heap.Accounts ledger (m.stack.take arity + (m.dropped arity).roots host) := by
      rw [← roots_eq_take_add]
      exact ha
    refine Ends.bind_modify (Ends.adaptExcept (onHeap_ends ?_))
    refine (Heap.Accounts.made_of_newTuple hitems ∅).mono ?_ fun _ _ hlapses => ⟨hlapses.safe, hlapses.acyclic⟩
    rintro h heap' ⟨ha', hlive, hgrows⟩
    exact ⟨⟨ha', hgrows.acyclic⟩, hlive⟩

/-! ## The diagnostics -/

theorem moveDiagnostics_ends {queue : List Diagnostic} {list : Handle}
    (ha : m.Accounts ledger (.ref .list list ::ₘ host)) :
    Ends (fun h => Settles ledger (.ref .list h ::ₘ host) m) (fun _ => Lapses host m) (moveDiagnostics queue list m) := by
  induction queue generalizing m list with
  | nil => exact ⟨ha, id⟩
  | cons d rest ih =>
    rw [Machine.Accounts, roots_cons] at ha
    have hcell : Ends (fun cell => Settles ledger (.ref .list cell ::ₘ host) m) (fun _ => Lapses host m)
        (onHeap (consMessage d.message list) { m with diagnostics := rest }) := by
      refine onHeap_ends ((Heap.Accounts.consMessage ha).mono ?_ fun _ _ hlapses => ⟨hlapses.safe, hlapses.acyclic⟩)
      rintro cell heap' ⟨ha', hgrows⟩
      refine ⟨?_, hgrows.acyclic⟩
      rw [Machine.Accounts, roots_cons]
      exact ha'
    refine Ends.bind_modify (hcell.bind fun cell m₁ hs₁ => (ih hs₁.accounts).mono (fun h m₂ hs₂ => ?_)
      fun _ m₂ hlapses => ?_)
    · exact ⟨hs₂.accounts, fun hacyclic => hs₂.acyclic (hs₁.acyclic hacyclic)⟩
    · exact ⟨hlapses.safe, fun hacyclic => hlapses.acyclic (hs₁.acyclic hacyclic)⟩

theorem takeDiagnostics_ends (ha : m.Accounts ledger host) :
    Ends (fun h => Settles ledger (.ref .list h ::ₘ host) m) (fun _ => Lapses host m) (takeDiagnostics m) :=
  Ends.bind_get (moveDiagnostics_ends (ha.hold Value.not_counted_emptyList))

/-! ## The scope -/

theorem unset_eq {indices : List Nat} (ha : m.Accounts ledger host) :
    ∃ m', unset indices m = .ok () m' ∧ m'.Accounts ledger host ∧
      m' = { m with heap := m'.heap, scope := m'.scope } ∧
      (∀ i, m'.scope.binding? i = if i ∈ indices then none else m.scope.binding? i) ∧
      (m.heap.Acyclic → m'.heap.Acyclic) := by
  induction indices generalizing m with
  | nil => exact ⟨m, rfl, ha, rfl, fun i => by rw [if_neg List.not_mem_nil], id⟩
  | cons index rest ih =>
    cases hold : m.scope.binding? index with
    | none =>
      have hunset : unset (index :: rest) m = unset rest m := by
        rw [unset, get_bind_apply, hold]
      obtain ⟨m', hrun, ha', hm', hbinding, hacyclic⟩ := ih ha
      refine ⟨m', hunset.trans hrun, ha', hm', fun i => ?_, hacyclic⟩
      rw [hbinding i]
      by_cases hi : i = index
      · simp [hi, hold]
      · simp [hi]
    | some old =>
      have hlt := Scope.lt_size_of_binding? hold
      have hroots := @roots_setBinding m host index none hlt
      rw [hold, Option.map_some, Option.map_none, Option.toList_some, Option.toList_none, Multiset.coe_nil, add_zero,
        Multiset.coe_singleton, Multiset.add_comm, Multiset.singleton_add] at hroots
      have ha₁ : { m with scope := m.scope.setBinding index none }.Accounts ledger (old.value ::ₘ host) := by
        rw [Machine.Accounts, roots_cons, hroots]
        exact ha
      obtain ⟨m₂, hrelease, ha₂, hm₂, hheap⟩ := release_eq ha₁
      have hunset : unset (index :: rest) m = unset rest m₂ := by
        rw [unset, get_bind_apply, hold]
        exact bind_apply_of_ok hrelease _
      obtain ⟨m', hrun, ha', hm', hbinding, hacyclic⟩ := ih ha₂
      refine ⟨m', hunset.trans hrun, ha', ?_, fun i => ?_, fun h => hacyclic (hheap.acyclic h)⟩
      · rw [hm', hm₂]
      · rw [hbinding i, hm₂]
        by_cases hi : i = index
        · rw [hi, Scope.binding?_setBinding_self hlt]
          simp
        · rw [Scope.binding?_setBinding_of_ne hi]
          simp [hi]

/-- `clearScope` never fails where the references are accounted for, and leaves no value in the scope. -/
theorem clearScope_eq (ha : m.Accounts ledger host) :
    ∃ m', clearScope m = .ok () m' ∧ m'.Accounts ledger host ∧ m'.scope.values = [] ∧
      m' = { m with heap := m'.heap, scope := m'.scope } ∧ (m.heap.Acyclic → m'.heap.Acyclic) := by
  obtain ⟨m', hrun, ha', hm', hbinding, hacyclic⟩ := @unset_eq m ledger host (List.range m.scope.size) ha
  refine ⟨m', hrun, ha', Scope.values_eq_nil fun i => ?_, hm', hacyclic⟩
  rw [hbinding i]
  split_ifs with hi
  · rfl
  · rw [List.mem_range] at hi
    by_contra hne
    obtain ⟨b, hb⟩ := Option.ne_none_iff_exists'.mp hne
    exact hi (Scope.lt_size_of_binding? hb)

theorem releaseEach_eq {vs : List Value} (ha : m.Accounts ledger (vs + host)) :
    ∃ m', (vs.forM fun v => onHeap (Heap.release v)) m = .ok () m' ∧ Settles ledger host m m' ∧
      m' = { m with heap := m'.heap } ∧ m.heap.Keeps m'.heap { w | w ∈ m.roots host } := by
  induction vs generalizing m with
  | nil =>
    rw [Multiset.coe_nil, zero_add] at ha
    exact ⟨m, rfl, ⟨ha, id⟩, rfl, .refl _ _⟩
  | cons v rest ih =>
    rw [← Multiset.cons_coe, Multiset.cons_add] at ha
    obtain ⟨m₁, hrelease, ha₁, hm₁, hheap⟩ := release_eq ha
    obtain ⟨m', hrun, hs, hm', hkeeps⟩ := ih ha₁
    have hroots : m₁.roots host = m.roots host := by
      rw [hm₁]
      rfl
    have hsub : { w | w ∈ m.roots host } ⊆ { w | w ∈ m.roots (rest + host) } := by
      intro w hw
      exact mem_roots.mpr ((mem_roots.mp hw).imp_right (Or.imp_right fun hhost => Multiset.mem_add.mpr (.inr hhost)))
    refine ⟨m', ?_, ⟨hs.accounts, fun h => hs.acyclic (hheap.acyclic h)⟩, by rw [hm', hm₁],
      (hheap.keeps.mono hsub).trans (hroots ▸ hkeeps)⟩
    change EStateM.bind (onHeap (Heap.release v)) _ m = _
    simp only [EStateM.bind, hrelease]
    exact hrun

theorem resizeScope_ends {names : VariableNames} (ha : m.Accounts ledger host) :
    Ends (fun _ m' => Settles ledger host m m' ∧ m'.stack = m.stack ∧ m.heap.Keeps m'.heap { w | w ∈ m'.roots host })
      (fun _ => Lapses host m) (resizeScope names m) := by
  refine Ends.bind_get ?_
  split_ifs
  · have hlive : ∀ v ∈ m.scope.values, m.heap.Live v := fun v hv => ha.live v (.inl (mem_roots.mpr (.inr (.inl hv))))
    have hcopy : Ends (fun wider m' => (m'.heap.Accounts ledger (wider.values + m.roots host) ∧
        m.heap.SameObjects m'.heap) ∧ m' = { m with heap := m'.heap }) (fun _ => Lapses host m)
        (onHeap (m.scope.copy names) m) := by
      refine onHeap_ends ((Scope.copy_ends ha hlive).mono (fun _ _ hgood => ⟨hgood, rfl⟩) ?_)
      rintro - heap' ⟨hsafe, hsame⟩
      exact ⟨hsafe, fun hacyclic => hacyclic.of_subset hsame.restriction.children_subset⟩
    refine hcopy.bind ?_
    rintro wider m₁ ⟨⟨ha₁, hsame⟩, hm₁⟩
    have hroots : { m₁ with scope := wider }.roots (m.scope.values + host) = wider.values + m.roots host := by
      rw [hm₁]
      simp only [roots]
      abel
    have ha₂ : { m₁ with scope := wider }.Accounts ledger (m.scope.values + host) := by
      rw [Machine.Accounts, hroots]
      exact ha₁
    obtain ⟨m', hrun, hs, hm', hkeeps⟩ := releaseEach_eq ha₂
    have hroots' : m'.roots host = { m₁ with scope := wider }.roots host := by
      rw [hm']
      rfl
    refine Ends.bind_modify ?_
    rw [hrun]
    refine ⟨⟨hs.accounts, fun h => hs.acyclic (h.of_subset hsame.restriction.children_subset)⟩, ?_, ?_⟩
    · rw [hm', hm₁]
    · rw [hroots']
      exact hsame.keeps.trans hkeeps
  · exact ⟨⟨ha, id⟩, rfl, .refl _ _⟩

end Machine

end RefMachine
