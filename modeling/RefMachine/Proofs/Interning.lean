import RefMachine.Proofs.Heap.Calls
import Mathlib.Data.List.Induction

/-!
# The table of shared texts

The table is written when a text is shared and when a slot is released, and it is keyed by hashes, not by slots, while
slots are filled again and texts of their own stand beside the shared ones. Still no entry ever outlives its text
(`shared_texts_current`): a shared slot holds a text that was shared when the slot was filled, and has held it since.
-/

namespace RefMachine

namespace Heap

variable {heap heap' : Heap} {h : Handle} {text : String} {entry : UInt64 × Handle} {calls later : List HeapCall}

/-- The string in a slot is live before, between and after the calls. -/
def StaysLive (heap : Heap) (later : List HeapCall) (h : Handle) : Prop :=
  ∀ part, part <+: later → ((heap.afterCalls part).get? .string h).isSome

/-- Among the calls is one that shared the text and filled the slot with it, and the text has been there since. -/
def SharedSince (calls : List HeapCall) (text : String) (h : Handle) : Prop :=
  ∃ before later, calls = before ++ .internString text :: later ∧ (ofCalls before).get? .string h = none ∧
    ∀ part, part <+: later → (ofCalls (before ++ .internString text :: part)).get? .string h = some text

theorem StaysLive.tail {call : HeapCall} (hlive : heap.StaysLive (call :: later) h) :
    (call.after heap).StaysLive later h :=
  fun part hpart => hlive (call :: part) (List.prefix_cons_inj call |>.mpr hpart)

theorem StaysLive.head (hlive : heap.StaysLive later h) : (heap.get? .string h).isSome :=
  hlive [] (List.nil_prefix)

theorem WellFormed.hash_eq (hw : heap.WellFormed) {entry' : UInt64 × Handle} (hentry : entry ∈ heap.interned)
    (hentry' : entry' ∈ heap.interned) (heq : entry.2 = entry'.2) : entry.1 = entry'.1 := by
  obtain ⟨text, hget, hhash⟩ := hw.interned entry hentry
  obtain ⟨text', hget', hhash'⟩ := hw.interned entry' hentry'
  rw [heq, hget'] at hget
  cases hget
  exact hhash.symm.trans hhash'

theorem WellFormed.handles_nodup (hw : heap.WellFormed) : (heap.interned.map Prod.snd).Nodup :=
  List.Nodup.map_on (fun _ hentry _ hentry' heq => Prod.ext (hw.hash_eq hentry hentry' heq) heq)
    hw.interned_nodup.of_map

theorem mem_interned_of_internString (hw : heap.WellFormed) (hrun : internString text heap = .ok h heap') :
    (contentHash text, h) ∈ heap'.interned := by
  rcases internString_cases hw text with ⟨h', hlookup, hrun'⟩ | ⟨h', heap'', hrun', -, -, -, htable⟩ | hrun'
  · rw [hrun] at hrun'
    cases hrun'
    exact mem_of_lookup hlookup
  · rw [hrun] at hrun'
    cases hrun'
    rw [htable]
    exact List.mem_cons_self
  · rw [hrun] at hrun'
    cases hrun'

theorem internString_ne_of_hash (hw : heap.WellFormed)
    (hother : ∀ entry ∈ heap.interned, entry.2 = h → entry.1 ≠ contentHash text)
    (hlive : (heap.get? .string h).isSome) {h' : Handle} (hrun : internString text heap = .ok h' heap') : h' ≠ h := by
  intro heq
  rcases internString_cases hw text with ⟨h₁, hlookup, hrun'⟩ | ⟨h₁, heap₁, hrun', hnone, -⟩ | hrun'
  · rw [hrun] at hrun'
    cases hrun'
    exact hother _ (mem_of_lookup hlookup) heq rfl
  · rw [hrun] at hrun'
    cases hrun'
    rw [← heq, hnone] at hlive
    cases hlive
  · rw [hrun] at hrun'
    cases hrun'

theorem internString_ne (hw : heap.WellFormed) (hplain : ∀ entry ∈ heap.interned, entry.2 ≠ h)
    (hlive : (heap.get? .string h).isSome) {h' : Handle} (hrun : internString text heap = .ok h' heap') : h' ≠ h :=
  internString_ne_of_hash hw (fun entry hentry heq => absurd heq (hplain entry hentry)) hlive hrun

theorem internString_of_mem (hw : heap.WellFormed) (hmem : (contentHash text, h) ∈ heap.interned) :
    internString text heap = .ok h heap := by
  unfold internString
  rw [get_bind_apply, lookup_of_mem hw.interned_nodup hmem]
  rfl

theorem after_internString (hrun : internString text heap = .ok h heap') :
    (HeapCall.internString text).after heap = heap' := by
  rw [HeapCall.after, HeapCall.run, HeapCall.allocate, bind_apply_of_ok hrun]
  rfl

/-- An entry stays in the intern table for as long as its slot stays live. -/
theorem mem_interned_afterCalls (hw : heap.WellFormed) (hentry : entry ∈ heap.interned)
    (hlive : heap.StaysLive later entry.2) : entry ∈ (heap.afterCalls later).interned := by
  induction later generalizing heap with
  | nil => exact hentry
  | cons call later ih =>
    have hfollows := call.follows hw
    exact ih hfollows.wellFormed (hfollows.interned entry hentry hlive.tail.head) hlive.tail

theorem not_mem_interned_afterCalls (hw : heap.WellFormed) (hplain : ∀ entry ∈ heap.interned, entry.2 ≠ h)
    (hlive : heap.StaysLive later h) : ∀ entry ∈ (heap.afterCalls later).interned, entry.2 ≠ h := by
  induction later generalizing heap with
  | nil => exact hplain
  | cons call later ih =>
    have hfollows := call.follows hw
    refine ih hfollows.wellFormed (fun entry hentry heq => ?_) hlive.tail
    rcases hfollows.shared entry hentry with hold | ⟨text, -, -, hnone, -⟩
    · exact hplain entry hold heq
    · have hsome := hlive.head
      rw [← heq, hnone] at hsome
      cases hsome

theorem newString_not_shared (hw : heap.WellFormed) (hrun : newString text heap = .ok h heap') :
    heap'.WellFormed ∧ ∀ entry ∈ heap'.interned, entry.2 ≠ h := by
  obtain ⟨hadds, k, h', x, hv, hnone, -⟩ := (insert_adds hw (k := .string) text).of_ok hrun
  cases hv
  refine ⟨hadds.wellFormed, fun entry hentry heq => ?_⟩
  rw [hadds.interned_eq] at hentry
  obtain ⟨text', hget, -⟩ := hw.interned entry hentry
  rw [heq, hnone] at hget
  cases hget

/-- Every entry of the intern table goes back to a call that shared its text. -/
theorem sharedSince_of_mem (hentry : entry ∈ (ofCalls calls).interned) :
    ∃ text, contentHash text = entry.1 ∧ SharedSince calls text entry.2 := by
  -- The last call either left the entry, and then also its text, or made it.
  induction calls using List.reverseRecOn with
  | nil => exact absurd hentry List.not_mem_nil
  | append_singleton calls call ih =>
    have hw := wellFormed_ofCalls calls
    have hfollows : call.Follows (ofCalls calls) (ofCalls (calls ++ [call])) := by
      rw [ofCalls_append]
      exact call.follows hw
    rcases hfollows.shared entry hentry with hold | ⟨text, rfl, hkey, hnone, hget⟩
    · obtain ⟨text, hkey, before, later, rfl, hnone, hsince⟩ := ih hold
      refine ⟨text, hkey, before, later ++ [call], by simp, hnone, fun part hpart => ?_⟩
      rcases List.prefix_concat_iff.mp hpart with rfl | hpart
      · obtain ⟨text', hget', -⟩ := hfollows.wellFormed.interned entry hentry
        have htext : text' = text := hfollows.get?_eq (hsince later (List.prefix_refl later)) hget'
        rw [← htext, ← hget', htext]
        simp
      · exact hsince part hpart
    · refine ⟨text, hkey.symm, calls, [], rfl, hnone, fun part hpart => ?_⟩
      rw [List.prefix_nil.mp hpart, hget]

end Heap

/-- **The intern table.** Whatever calls are made of a new heap, and however they end, every entry names a live text of
its hash, one for each hash and each slot. `internString` answers with a live slot for a text of the same hash, which
was shared when the slot was filled and has been there since, and again with that slot for as long as it is live. A slot
filled by `newString` is never the answer while it is live. -/
theorem shared_texts_current (calls : List HeapCall) :
    (∀ entry ∈ (Heap.ofCalls calls).interned,
      ∃ text, (Heap.ofCalls calls).get? .string entry.2 = some text ∧ contentHash text = entry.1) ∧
    ((Heap.ofCalls calls).interned.map Prod.fst).Nodup ∧ ((Heap.ofCalls calls).interned.map Prod.snd).Nodup ∧
    (∀ text h heap', Heap.internString text (Heap.ofCalls calls) = .ok h heap' →
      (∃ text', heap'.get? .string h = some text' ∧ contentHash text' = contentHash text ∧
        Heap.SharedSince (calls ++ [.internString text]) text' h) ∧
      ∀ later, heap'.StaysLive later h →
        Heap.internString text (heap'.afterCalls later) = .ok h (heap'.afterCalls later)) ∧
    ∀ text h heap', Heap.newString text (Heap.ofCalls calls) = .ok h heap' →
      ∀ later, heap'.StaysLive later h → ∀ text' h' heap'',
        Heap.internString text' (heap'.afterCalls later) = .ok h' heap'' → h' ≠ h := by
  have hw := Heap.wellFormed_ofCalls calls
  refine ⟨hw.interned, hw.interned_nodup, hw.handles_nodup, fun text h heap' hrun => ?_,
    fun text h heap' hrun later hlive text' h' heap'' hrun' => ?_⟩
  · have hmem := Heap.mem_interned_of_internString hw hrun
    have hheap : Heap.ofCalls (calls ++ [.internString text]) = heap' := by
      rw [Heap.ofCalls_append]
      exact Heap.after_internString hrun
    subst hheap
    have hw' := Heap.wellFormed_ofCalls (calls ++ [.internString text])
    refine ⟨?_, fun later hlive => ?_⟩
    · obtain ⟨text', hhash, hsince⟩ := Heap.sharedSince_of_mem hmem
      refine ⟨text', ?_, hhash, hsince⟩
      obtain ⟨before, later, hcalls, -, hget⟩ := hsince
      rw [hcalls]
      exact hget later (List.prefix_refl later)
    · exact Heap.internString_of_mem (hw'.afterCalls later) (Heap.mem_interned_afterCalls hw' hmem hlive)
  · obtain ⟨hw', hplain⟩ := Heap.newString_not_shared hw hrun
    exact Heap.internString_ne (hw'.afterCalls later) (Heap.not_mem_interned_afterCalls hw' hplain hlive)
      (hlive later (List.prefix_refl later)) hrun'

/-- A shared text is released, a string of its own takes the slot, and the text is shared again in another slot. -/
theorem shared_texts_current_reused :
    let calls := [.internString "a", .retain (.ref .string ⟨0⟩), .release (.ref .string ⟨0⟩), .newString "b"]
    (Heap.ofCalls calls).get? .string ⟨0⟩ = some "b" ∧
      ∃ heap', Heap.internString "a" (Heap.ofCalls calls) = .ok ⟨1⟩ heap' ∧
        Heap.internString "a" (heap'.afterCalls [.newString "a"]) = .ok ⟨1⟩ (heap'.afterCalls [.newString "a"]) := by
  intro calls
  have hanswer : (answer? (Heap.internString "a" (Heap.ofCalls calls))).map Prod.fst = some ⟨1⟩ := by
    decide +kernel
  obtain ⟨⟨_, heap'⟩, hrun, rfl⟩ := Option.map_eq_some_iff.mp hanswer
  rw [answer?_eq_some_iff] at hrun
  obtain ⟨-, -, -, hshare, -⟩ := shared_texts_current calls
  refine ⟨by decide +kernel, heap', hrun, (hshare "a" ⟨1⟩ heap' hrun).2 [.newString "a"] ?_⟩
  intro part hpart
  rw [← Heap.after_internString hrun]
  rcases List.prefix_cons_iff.mp hpart with rfl | ⟨rest, rfl, hrest⟩
  · decide +kernel
  · rw [List.prefix_nil.mp hrest]
    decide +kernel

end RefMachine
