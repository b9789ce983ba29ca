import RefMachine.Proofs.Interning
import Mathlib.Tactic.IntervalCases

/-!
# Texts that differ a little

The table of shared texts compares hashes and not texts. Two texts that differ only inside a window of up to three code
units have different hashes all the same, so they are never found in one slot (`near_texts_apart`).

Before the window the hashes are equal. Inside it each unit multiplies their difference by the factor and then moves it
by little (`Apart.exists_move`). So the difference is a number to the base of the factor whose digits are these moves, and
it is zero only if every move is (`apart_window`). Three digits do not reach as far as a word (`reach_lt`), so what is not
zero is not zero in a word either. After the window a difference stays, since the factor is odd (`step_left_injective`).
-/

namespace RefMachine

namespace ContentHash

variable {x y : UInt64} {d : Int}

theorem toNat_factor : factor.toNat = 1251953 :=
  rfl

/-! ## A difference stays -/

/-- The factor is odd, so it can be divided by. -/
def inverse : UInt64 := 5626703909724972689

theorem factor_mul_inverse : factor * inverse = 1 := by
  decide

theorem step_left_injective (unit : UInt16) : Function.Injective fun hash => step hash unit := by
  intro x y hstep
  have hmul : x * factor = y * factor := (UInt64.xor_left_inj unit.toUInt64).mp hstep
  calc x
      = x * factor * inverse := by rw [UInt64.mul_assoc, factor_mul_inverse, UInt64.mul_one]
    _ = y * factor * inverse := by rw [hmul]
    _ = y := by rw [UInt64.mul_assoc, factor_mul_inverse, UInt64.mul_one]

theorem step_right_injective (hash : UInt64) : Function.Injective (step hash) := by
  intro unit unit' hstep
  exact UInt16.toUInt64_inj.mp ((UInt64.xor_right_inj (hash * factor)).mp hstep)

theorem foldl_step_injective (units : List UInt16) : Function.Injective fun hash => units.foldl step hash := by
  induction units with
  | nil => exact fun _ _ heq => heq
  | cons unit units ih => exact fun _ _ heq => step_left_injective unit (ih heq)

/-! ## A window of units -/

/-- The second hash is this far from the first one, up to multiples of the size of a word. -/
def Apart (x y : UInt64) (d : Int) : Prop :=
  2 ^ 64 ∣ (y.toNat : Int) - x.toNat - d

theorem apart_self (x : UInt64) : Apart x x 0 := by
  simp [Apart]

theorem Apart.eq (h : Apart x y 0) : x = y := by
  have hx := x.toNat_lt
  have hy := y.toNat_lt
  apply UInt64.toNat_inj.mp
  unfold Apart at h
  omega

theorem toNat_step_div (hash : UInt64) (unit : UInt16) :
    (step hash unit).toNat / 2 ^ 16 = (hash * factor).toNat / 2 ^ 16 := by
  rw [step, UInt64.toNat_xor, UInt16.toNat_toUInt64, Nat.xor_div_two_pow, Nat.div_eq_of_lt unit.toNat_lt, Nat.xor_zero]

theorem Apart.mul_factor (h : Apart x y d) : Apart (x * factor) (y * factor) (d * factor.toNat) := by
  unfold Apart at h ⊢
  rw [UInt64.toNat_mul, UInt64.toNat_mul, toNat_factor]
  omega

/-- One `step` on each side multiplies the difference of two hashes by `factor` and moves it by less than `2 ^ 17`. -/
theorem Apart.exists_move (h : Apart x y d) (a b : UInt16) :
    ∃ move : Int, move.natAbs < 2 ^ 17 ∧ Apart (step x a) (step y b) (d * factor.toNat + move) := by
  have hx := toNat_step_div x a
  have hy := toNat_step_div y b
  have hmul := h.mul_factor
  unfold Apart at hmul ⊢
  generalize (step x a).toNat = x₁, (x * factor).toNat = x₀ at hx hmul ⊢
  generalize (step y b).toNat = y₁, (y * factor).toNat = y₀ at hy hmul ⊢
  exact ⟨(y₁ - y₀) - (x₁ - x₀), by omega, by omega⟩

/-- How far two hashes that were equal can come apart over some units. -/
def reach : Nat → Nat
  | 0 => 0
  | n + 1 => reach n * factor.toNat + 2 ^ 17

theorem reach_lt {n : Nat} (hn : n ≤ 3) : reach n < 2 ^ 64 := by
  interval_cases n <;> decide

/-- Over two windows of one length, from one hash, the hashes come apart by at most `reach`, and by nothing only if the
windows are equal. -/
theorem apart_window (x : UInt64) {w w' : List UInt16} (hlength : w.length = w'.length) :
    ∃ d : Int, d.natAbs ≤ reach w.length ∧ Apart (w.foldl step x) (w'.foldl step x) d ∧ (d = 0 → w = w') := by
  induction w using List.reverseRecOn generalizing w' with
  | nil =>
    have hnil : w' = [] := List.length_eq_zero_iff.mp hlength.symm
    subst hnil
    exact ⟨0, by simp, apart_self x, fun _ => rfl⟩
  | append_singleton w a ih =>
    obtain rfl | ⟨w', b, rfl⟩ := List.eq_nil_or_concat' w'
    · simp at hlength
    simp only [List.length_append, List.length_singleton, Nat.add_right_cancel_iff] at hlength
    obtain ⟨d, hreach, hapart, hzero⟩ := ih hlength
    obtain ⟨move, hmove, hstep⟩ := hapart.exists_move a b
    simp only [List.foldl_append, List.foldl_cons, List.foldl_nil, List.length_append, List.length_singleton]
    refine ⟨d * factor.toNat + move, ?_, hstep, fun heq => ?_⟩
    · rw [reach, toNat_factor]
      omega
    · -- The move is less than the factor, so it cannot make up for a difference that was there before it.
      have hd : d = 0 := by
        rw [toNat_factor] at heq
        omega
      have hw := hzero hd
      subst hw
      rw [heq] at hstep
      rw [step_right_injective _ hstep.eq]

theorem foldl_window_ne (x : UInt64) {w w' : List UInt16} (hlength : w.length = w'.length) (hshort : w.length ≤ 3)
    (hne : w ≠ w') : w.foldl step x ≠ w'.foldl step x := by
  intro heq
  obtain ⟨d, hreach, hapart, hzero⟩ := apart_window x hlength
  have hlt := reach_lt hshort
  rw [heq] at hapart
  refine hne (hzero ?_)
  obtain ⟨k, hk⟩ := hapart
  omega

theorem ofUnits_window_ne {w w' : List UInt16} (p s : List UInt16) (hlength : w.length = w'.length)
    (hshort : w.length ≤ 3) (hne : w ≠ w') : ofUnits (p ++ w ++ s) ≠ ofUnits (p ++ w' ++ s) := by
  simp only [ofUnits, List.foldl_append]
  exact (foldl_step_injective s).ne (foldl_window_ne _ hlength hshort hne)

end ContentHash

/-! ## Code units -/

theorem toNat_utf16Units (c : Char) :
    (utf16Units c).map UInt16.toNat =
      if c.toNat < 0x10000 then [c.toNat]
      else [0xD800 + (c.toNat - 0x10000) / 0x400, 0xDC00 + (c.toNat - 0x10000) % 0x400] := by
  have hvalid : c.toNat < 0xD800 ∨ 0xDFFF < c.toNat ∧ c.toNat < 0x110000 := c.valid
  have hword : ∀ n < 2 ^ 16, n.toUInt16.toNat = n := fun n hn => UInt16.toNat_ofNat_of_lt' hn
  simp only [utf16Units]
  split_ifs with hsmall
  · rw [List.map_singleton, hword _ (by omega)]
  · rw [List.map_cons, List.map_singleton, hword _ (by omega), hword _ (by omega)]

theorem utf16Units_append_inj {c c' : Char} {units units' : List UInt16}
    (heq : utf16Units c ++ units = utf16Units c' ++ units') : c = c' ∧ units = units' := by
  have hvalid : c.toNat < 0xD800 ∨ 0xDFFF < c.toNat ∧ c.toNat < 0x110000 := c.valid
  have hvalid' : c'.toNat < 0xD800 ∨ 0xDFFF < c'.toNat ∧ c'.toNat < 0x110000 := c'.valid
  have hunits : units.map UInt16.toNat = units'.map UInt16.toNat → units = units' := fun h =>
    List.map_injective_iff.mpr (fun _ _ => UInt16.toNat_inj.mp) h
  have hnumbers := congrArg (List.map UInt16.toNat) heq
  rw [List.map_append, List.map_append, toNat_utf16Units, toNat_utf16Units] at hnumbers
  -- A character of one unit is no surrogate, and one of two units starts with a surrogate.
  split_ifs at hnumbers with hsmall hsmall' hsmall' <;>
    simp only [List.cons_append, List.nil_append, List.cons.injEq] at hnumbers
  · exact ⟨Char.toNat_inj.mp hnumbers.1, hunits hnumbers.2⟩
  · omega
  · omega
  · exact ⟨Char.toNat_inj.mp (by omega), hunits hnumbers.2.2⟩

theorem flatMap_utf16Units_injective : Function.Injective (List.flatMap utf16Units) := by
  have hne : ∀ c, utf16Units c ≠ [] := fun c => by
    simp only [utf16Units]
    split_ifs <;> simp
  intro cs
  induction cs with
  | nil =>
    rintro (_ | ⟨c', cs'⟩) heq
    · rfl
    · simp [hne c'] at heq
  | cons c cs ih =>
    rintro (_ | ⟨c', cs'⟩) heq
    · simp [hne c] at heq
    · rw [List.flatMap_cons, List.flatMap_cons] at heq
      obtain ⟨rfl, hrest⟩ := utf16Units_append_inj heq
      rw [ih hrest]

/-! ## Slots -/

namespace Heap

variable {heap heap' heap'' : Heap} {h h' : Handle} {text text' : String} {later : List HeapCall}

theorem internString_ne_of_contentHash (hw : heap.WellFormed) (hhash : contentHash text ≠ contentHash text')
    (hrun : internString text heap = .ok h heap') (hlive : heap'.StaysLive later h)
    (hrun' : internString text' (heap'.afterCalls later) = .ok h' heap'') : h' ≠ h := by
  have hw' : heap'.WellFormed := by
    rw [← after_internString hrun]
    exact ((HeapCall.internString text).follows hw).wellFormed
  have hmem := mem_interned_afterCalls hw' (mem_interned_of_internString hw hrun) hlive
  have hw'' := hw'.afterCalls later
  refine internString_ne_of_hash hw'' (fun entry hentry heq => ?_) (hlive later (List.prefix_refl later)) hrun'
  rw [hw''.hash_eq hentry hmem heq]
  exact hhash

end Heap

/-- **Near texts.** Two different windows of one length, of at most three code units, give different hashes wherever
they stand, whatever the units before and after them are. So of two texts that differ only there, `internString` of the
one does not answer with a slot that has the other, whatever calls are made meanwhile. The heap may be any well-formed
one, as every heap is that comes about by calls (`wellFormed_ofCalls`). -/
theorem near_texts_apart {p w w' s : List UInt16} (hlength : w.length = w'.length) (hshort : w.length ≤ 3) :
    (w ≠ w' → ContentHash.ofUnits (p ++ w ++ s) ≠ ContentHash.ofUnits (p ++ w' ++ s)) ∧
      ∀ text text', text.toList.flatMap utf16Units = p ++ w ++ s → text'.toList.flatMap utf16Units = p ++ w' ++ s →
        text ≠ text' → ∀ heap : Heap, heap.WellFormed → ∀ h heap', Heap.internString text heap = .ok h heap' →
          ∀ later, heap'.StaysLive later h → ∀ h' heap'',
            Heap.internString text' (heap'.afterCalls later) = .ok h' heap'' → h' ≠ h := by
  refine ⟨ContentHash.ofUnits_window_ne p s hlength hshort, ?_⟩
  intro text text' hunits hunits' hne heap hw h heap' hrun later hlive h' heap'' hrun'
  have hwindow : w ≠ w' := by
    rintro rfl
    exact hne (String.toList_inj.mp (flatMap_utf16Units_injective (hunits.trans hunits'.symm)))
  have hhash : contentHash text ≠ contentHash text' := by
    rw [contentHash, contentHash, hunits, hunits']
    exact ContentHash.ofUnits_window_ne p s hlength hshort hwindow
  exact Heap.internString_ne_of_contentHash hw hhash hrun hlive hrun'

/-- Two texts that differ in the second half of a surrogate pair, shared one after the other. -/
theorem near_texts_apart_surrogates :
    ContentHash.ofUnits ([0x78] ++ [0xD83D, 0xDE00] ++ [0x79]) ≠
        ContentHash.ofUnits ([0x78] ++ [0xD83D, 0xDE01] ++ [0x79]) ∧
      ∃ heap' heap'', Heap.internString "x😀y" Heap.empty = .ok ⟨0⟩ heap' ∧
        Heap.internString "x😁y" (heap'.afterCalls [.retain (.ref .string ⟨0⟩)]) = .ok ⟨1⟩ heap'' ∧
        (⟨1⟩ : Handle) ≠ ⟨0⟩ := by
  obtain ⟨hhash, hslots⟩ := @near_texts_apart [0x78] [0xD83D, 0xDE00] [0xD83D, 0xDE01] [0x79] rfl (by decide)
  refine ⟨hhash (by decide), ?_⟩
  have hanswer : (answer? (Heap.internString "x😀y" Heap.empty)).map Prod.fst = some ⟨0⟩ := by
    decide +kernel
  obtain ⟨⟨_, heap'⟩, hrun, rfl⟩ := Option.map_eq_some_iff.mp hanswer
  rw [answer?_eq_some_iff] at hrun
  have hanswer' : (answer? (Heap.internString "x😁y"
      (((HeapCall.internString "x😀y").after Heap.empty).afterCalls [.retain (.ref .string ⟨0⟩)]))).map Prod.fst =
        some ⟨1⟩ := by
    decide +kernel
  rw [Heap.after_internString hrun] at hanswer'
  obtain ⟨⟨_, heap''⟩, hrun', rfl⟩ := Option.map_eq_some_iff.mp hanswer'
  rw [answer?_eq_some_iff] at hrun'
  refine ⟨heap', heap'', hrun, hrun', hslots "x😀y" "x😁y" (by decide +kernel) (by decide +kernel) (by decide +kernel)
    Heap.empty Heap.wellFormed_empty ⟨0⟩ heap' hrun [.retain (.ref .string ⟨0⟩)] ?_ ⟨1⟩ heap'' hrun'⟩
  intro part hpart
  rw [← Heap.after_internString hrun]
  rcases List.prefix_cons_iff.mp hpart with rfl | ⟨rest, rfl, hrest⟩
  · decide +kernel
  · rw [List.prefix_nil.mp hrest]
    decide +kernel

end RefMachine
