import RefMachine.Proofs.Heap.Accounts

/-!
# Making objects

What the operations that make objects do to the accounts: each takes over the references to what the new object holds,
adds objects, closes no cycle and shares no text but those expected (`Grows`). The new object has no reference yet, and
`keep` counts the first one. An operation that fails may have made some objects and lost references to others, but what
is still held is safe (`Lapses`).
-/

namespace RefMachine

namespace Heap

variable {heap heap' heap'' : Heap} {ledger : Ledger} {k : Kind} {h : Handle} {v : Value}
  {roots roots' : Multiset Value} {texts : Set String}

/-- Objects were added, no cycle was closed, and only texts among the given ones came to be shared. -/
structure Grows (texts : Set String) (heap heap' : Heap) : Prop where
  extension : heap.Extends heap'
  acyclic : heap.Acyclic → heap'.Acyclic
  shared : heap'.sharedTexts ⊆ texts ∪ heap.sharedTexts

theorem Grows.refl (heap : Heap) : heap.Grows texts heap :=
  ⟨fun _ _ _ hget => hget, id, Set.subset_union_right⟩

theorem Grows.trans (h₁ : heap.Grows texts heap') (h₂ : heap'.Grows texts heap'') : heap.Grows texts heap'' where
  extension k h x hget := h₂.extension k h x (h₁.extension k h x hget)
  acyclic hacyclic := h₂.acyclic (h₁.acyclic hacyclic)
  shared := h₂.shared.trans (Set.union_subset Set.subset_union_left h₁.shared)

theorem SameObjects.grows (hsame : heap.SameObjects heap') (hw : heap.WellFormed)
    (htable : heap'.interned = heap.interned) : heap.Grows texts heap' where
  extension := hsame.extension
  acyclic hacyclic := hacyclic.of_subset hsame.restriction.children_subset
  shared := (hsame.extension.sharedTexts_subset hw htable).trans Set.subset_union_right

theorem Shrinks.acyclic (hshrinks : heap.Shrinks heap') (hacyclic : heap.Acyclic) : heap'.Acyclic :=
  hacyclic.of_subset hshrinks.restriction.children_subset

theorem Grows.keeps (hgrows : heap.Grows texts heap') (ha : heap.Accounts ledger roots) :
    heap.Keeps heap' {w | w ∈ roots} :=
  hgrows.extension.keeps fun _ hreach => ha.live_of_reachable hreach

/-- What a heap and a later one have in common: what the held values reach is kept, no cycle was closed, and only texts
among the given ones came to be shared. -/
structure Evolves (texts : Set String) (held : Set Value) (heap heap' : Heap) : Prop where
  keeps : heap.Keeps heap' held
  acyclic : heap.Acyclic → heap'.Acyclic
  shared : heap'.sharedTexts ⊆ texts ∪ heap.sharedTexts

namespace Evolves

variable {held held' : Set Value}

theorem refl (heap : Heap) : heap.Evolves texts held heap :=
  ⟨.refl _ _, id, Set.subset_union_right⟩

theorem trans (h₁ : heap.Evolves texts held heap') (h₂ : heap'.Evolves texts held heap'') :
    heap.Evolves texts held heap'' where
  keeps := h₁.keeps.trans h₂.keeps
  acyclic hacyclic := h₂.acyclic (h₁.acyclic hacyclic)
  shared := h₂.shared.trans (Set.union_subset Set.subset_union_left h₁.shared)

theorem mono (he : heap.Evolves texts held' heap') (hsub : held ⊆ held') : heap.Evolves texts held heap' :=
  ⟨he.keeps.mono hsub, he.acyclic, he.shared⟩

end Evolves

theorem Grows.evolves (hgrows : heap.Grows texts heap') (ha : heap.Accounts ledger roots) :
    heap.Evolves texts {w | w ∈ roots} heap' :=
  ⟨hgrows.keeps ha, hgrows.acyclic, hgrows.shared⟩

theorem SameObjects.evolves {held : Set Value} (hsame : heap.SameObjects heap') (hw : heap.WellFormed)
    (htable : heap'.interned = heap.interned) : heap.Evolves texts held heap' := by
  have hgrows : heap.Grows texts heap' := hsame.grows hw htable
  exact ⟨hsame.keeps, hgrows.acyclic, hgrows.shared⟩

theorem Shrinks.evolves {held : Set Value} (hshrinks : heap.Shrinks heap') (hkeeps : heap.Keeps heap' held) :
    heap.Evolves texts held heap' :=
  ⟨hkeeps, hshrinks.acyclic, hshrinks.sharedTexts_subset.trans Set.subset_union_right⟩

/-- What an operation that failed leaves behind: the roots are safe, and no cycle was closed. -/
structure Lapses (roots : Multiset Value) (heap heap' : Heap) : Prop where
  safe : heap'.Safe roots
  acyclic : heap.Acyclic → heap'.Acyclic

theorem Lapses.mono (hlapses : heap.Lapses roots heap') (hle : roots' ≤ roots) : heap.Lapses roots' heap' :=
  ⟨hlapses.safe.accounts.safe_of_le hle, hlapses.acyclic⟩

theorem Lapses.of_grows (hlapses : heap'.Lapses roots heap'') (hgrows : heap.Grows texts heap') :
    heap.Lapses roots heap'' :=
  ⟨hlapses.safe, fun hacyclic => hlapses.acyclic (hgrows.acyclic hacyclic)⟩

theorem Accounts.lapses (ha : heap.Accounts ledger roots) (hle : roots' ≤ roots) : heap.Lapses roots' heap :=
  ⟨ha.safe_of_le hle, id⟩

theorem live_of_get? {x : k.Content} (hget : heap.get? k h = some x) : heap.Live (.ref k h) := by
  simp [Live, hget]

/-- The new object of an operation with its first reference. -/
def keep (k : Kind) (new : HeapM Handle) : HeapM Value := do
  let h ← new
  retain (.ref k h)
  return .ref k h

namespace Accounts

/-- The outcome of making an object: it is there and takes part in no account yet. -/
def Made (texts : Set String) (heap : Heap) (ledger : Ledger) (roots : Multiset Value) (k : Kind) (h : Handle)
    (heap' : Heap) : Prop :=
  heap'.Accounts (ledger.excuse (.ref k h)) roots ∧ heap'.Live (.ref k h) ∧ heap.Grows texts heap'

theorem made_of_insert {x : k.Content} (ha : heap.Accounts ledger (k.references x + roots)) (texts : Set String) :
    Ends (fun h heap' => Made texts heap ledger roots k h heap' ∧ heap'.get? k h = some x ∧ k.pins h = false ∧
        heap'.interned = heap.interned)
      (fun e heap' => e.Exhausted ∧ heap' = heap) (Heap.insert k x heap) := by
  refine ha.insert.mono ?_ fun _ _ hbad => hbad
  rintro h heap' ⟨ha', hget, hu, hacyclic, htable⟩
  have hget' : heap'.get? k h = some x := hu.get?_self
  have hext : heap.Extends heap' := hu.extension (by simp [hget])
  have hshared := hext.sharedTexts_subset ha.wellFormed htable
  have hpins : k.pins h = false := by
    rw [← ha.wellFormed.pins_eq]
    exact (ha.wellFormed.store k).pins_eq_false hget
  exact ⟨⟨ha', live_of_get? hget', hext, hacyclic, hshared.trans Set.subset_union_right⟩, hget', hpins, htable⟩

theorem made_of_cons {head : Value} {tail : Handle}
    (ha : heap.Accounts ledger (head ::ₘ .ref .list tail ::ₘ roots)) (texts : Set String) :
    Ends (fun h heap' => Made texts heap ledger roots .list h heap' ∧ heap'.get? .list h = some ⟨head, tail⟩ ∧
        h.isSentinel = false)
      (fun e heap' => e.Exhausted ∧ heap' = heap) (Heap.cons head tail heap) := by
  have hlive : heap.Live (.ref .list tail) := ha.live _ (.inl (by simp))
  obtain ⟨cell, hget⟩ := Option.isSome_iff_exists.mp hlive
  have hget' : heap.lists.get? tail = some cell := hget
  unfold Heap.cons
  refine Ends.bind_get ?_
  rw [hget']
  have hcell : heap.Accounts ledger (Kind.references .list ⟨head, tail⟩ + roots) := by
    simpa only [Kind.references, ← Multiset.cons_coe, Multiset.coe_nil, Multiset.cons_add, zero_add] using ha
  exact (made_of_insert hcell texts).mono (fun _ _ hmade => ⟨hmade.1, hmade.2.1, hmade.2.2.1⟩) fun _ _ hbad => hbad

/-- `internString` answers with a live slot, which holds the text if `contentHash` tells all texts loaded or shared
apart. -/
theorem made_of_internString (ha : heap.Accounts ledger roots) {text : String} (htext : text ∈ texts) :
    Ends (fun h heap' => Made texts heap ledger roots .string h heap' ∧
        (Set.InjOn contentHash (texts ∪ heap.sharedTexts) → heap'.get? .string h = some text))
      (fun e heap' => e.Exhausted ∧ heap' = heap) (Heap.internString text heap) := by
  unfold Heap.internString
  refine Ends.bind_get ?_
  rcases hlookup : heap.interned.lookup (contentHash text) with _ | h
  · have hstring : heap.Accounts ledger (Kind.references .string text + roots) := by
      simpa [Kind.references] using ha
    refine (made_of_insert hstring texts).bind fun h heap' hmade => Ends.bind_modify ?_
    obtain ⟨⟨⟨hw, hlive, hcount, hpos⟩, hl, hext, hacyclic, hshared⟩, hget, -, htable⟩ := hmade
    have hfresh : heap'.interned.lookup (contentHash text) = none := by
      rw [htable, hlookup]
    -- Only the table differs from the heap with the new string.
    refine ⟨⟨⟨hw.share hget hfresh, hlive, hcount, hpos⟩, hl, hext, hacyclic, ?_⟩, fun _ => hget⟩
    · rintro shared ⟨entry, hentry, hget'⟩
      rcases List.mem_cons.mp hentry with rfl | hentry
      · exact .inl (Option.some.inj (hget.symm.trans hget') ▸ htext)
      · exact hshared ⟨entry, hentry, hget'⟩
  · have hmem := mem_of_lookup hlookup
    obtain ⟨shared, hget, hhash⟩ := ha.wellFormed.interned _ hmem
    refine ⟨⟨ha.excuse _, live_of_get? hget, .refl _⟩, fun hinj => ?_⟩
    rwa [← hinj (.inr ⟨_, hmem, hget⟩) (.inl htext) hhash]

theorem bind_keep {β : Type} {new : HeapM Handle} {next : Handle → HeapM β} {good : β → Heap → Prop}
    {bad : HeapError → Heap → Prop}
    (hnew : Ends (Made texts heap ledger roots k) (fun _ => heap.Lapses roots) (new heap))
    (hbad : ∀ e heap', heap.Lapses roots heap' → bad e heap')
    (hnext : ∀ h heap', heap'.Accounts ledger (.ref k h ::ₘ roots) → heap.Grows texts heap' →
      Ends good bad (next h heap')) :
    Ends good bad ((do let h ← new; Heap.retain (.ref k h); next h : HeapM β) heap) := by
  refine (hnew.mono (fun _ _ hmade => hmade) hbad).bind fun h heap' hmade => ?_
  obtain ⟨ha, hlive, hgrows⟩ := hmade
  refine ((ha.retain hlive).mono (fun _ _ hgood => hgood) ?_).bind fun _ heap'' hgood => ?_
  · rintro e heap'' ⟨-, rfl⟩
    exact hbad e _ ((ha.lapses le_rfl).of_grows hgrows)
  · obtain ⟨ha', hsame, htable⟩ := hgood
    exact hnext h heap'' ha' (hgrows.trans (hsame.grows ha.wellFormed htable))

theorem keep {new : HeapM Handle}
    (hnew : Ends (Made texts heap ledger roots k) (fun _ => heap.Lapses roots) (new heap)) :
    Ends (fun v heap' => heap'.Accounts ledger (v ::ₘ roots) ∧ heap.Grows texts heap') (fun _ => heap.Lapses roots)
      (Heap.keep k new heap) := by
  refine bind_keep hnew (fun _ _ hlapses => hlapses) fun h heap' ha hgrows => ?_
  exact ⟨ha, hgrows⟩

theorem lapses_of_exhausted (ha : heap.Accounts ledger roots) (hle : roots' ≤ roots) (e : HeapError) (heap' : Heap)
    (hbad : e.Exhausted ∧ heap' = heap) : heap.Lapses roots' heap' := by
  rw [hbad.2]
  exact ha.lapses hle

theorem made_of_newString (ha : heap.Accounts ledger roots) (text : String) (texts : Set String) :
    Ends (Made texts heap ledger roots .string) (fun _ => heap.Lapses roots) (Heap.newString text heap) := by
  have hstring : heap.Accounts ledger (Kind.references .string text + roots) := by
    simpa [Kind.references] using ha
  exact (made_of_insert hstring texts).mono (fun _ _ hmade => hmade.1) (ha.lapses_of_exhausted le_rfl)

theorem made_of_newTuple {items : List Value} (ha : heap.Accounts ledger (items + roots)) (texts : Set String) :
    Ends (Made texts heap ledger roots .tuple) (fun _ => heap.Lapses roots) (Heap.newTuple items heap) := by
  have htuple : heap.Accounts ledger (Kind.references .tuple items + roots) := by
    rwa [Kind.references, Multiset.coe_reverse]
  exact (made_of_insert htuple texts).mono (fun _ _ hmade => hmade.1)
    (ha.lapses_of_exhausted (Multiset.le_add_left _ _))

theorem made_of_newExpression (ha : heap.Accounts ledger roots) (e : Expression) (texts : Set String) :
    Ends (Made texts heap ledger roots .expression) (fun _ => heap.Lapses roots) (Heap.newExpression e heap) := by
  have hexpression : heap.Accounts ledger (Kind.references .expression e + roots) := by
    simpa [Kind.references] using ha
  exact (made_of_insert hexpression texts).mono (fun _ _ hmade => hmade.1) (ha.lapses_of_exhausted le_rfl)

/-- `newList` takes over the references to its items; if there is no room for all of its cells, those already made stay.
-/
theorem made_of_newList {items : List Value} (ha : heap.Accounts ledger (items + roots)) :
    Ends (Made texts heap ledger roots .list) (fun _ => heap.Lapses roots) (Heap.newList items heap) := by
  induction items generalizing roots with
  | nil =>
    rw [Multiset.coe_nil, zero_add] at ha
    exact ⟨ha.excuse _, live_of_not_counted ha.wellFormed Value.not_counted_emptyList, .refl _⟩
  | cons item rest ih =>
    rw [← Multiset.cons_coe, Multiset.cons_add, ← Multiset.add_cons] at ha
    unfold Heap.newList
    rw [List.foldrM_cons]
    refine ((ih ha).mono (fun _ _ hmade => hmade) fun _ _ hlapses =>
      hlapses.mono (Multiset.le_cons_self _ _)).bind fun tail heap₁ hmade => ?_
    obtain ⟨ha₁, hlive, hgrows₁⟩ := hmade
    refine ((ha₁.retain hlive).mono (fun _ _ hgood => hgood) fun e heap' hbad =>
      (ha₁.lapses_of_exhausted (Multiset.le_cons_self _ _) e heap' hbad).of_grows hgrows₁).bind fun _ heap₂ hgood => ?_
    obtain ⟨ha₂, hsame, htable⟩ := hgood
    have hgrows₂ : heap.Grows texts heap₂ := hgrows₁.trans (hsame.grows ha₁.wellFormed htable)
    rw [Multiset.cons_swap] at ha₂
    have hle : roots ≤ item ::ₘ .ref .list tail ::ₘ roots :=
      (Multiset.le_cons_self _ _).trans (Multiset.le_cons_self _ _)
    refine (made_of_cons ha₂ texts).mono (fun h heap₃ hmade => ?_) fun e heap₃ hbad => ?_
    · exact ⟨hmade.1.1, hmade.1.2.1, hgrows₂.trans hmade.1.2.2⟩
    · exact (ha₂.lapses_of_exhausted hle e heap₃ hbad).of_grows hgrows₂

end Accounts

end Heap

end RefMachine
