import RefMachine.Proofs.Machine.Preservation
import RefMachine.Proofs.Session

/-!
# Bindings are permanent

In a safe machine, evaluations and wider scopes never take a binding back. A bound variable stays bound with its
mutability, an immutable one keeps its value, and all that this value reaches in the heap stays there unchanged. So it
is from any moment on, whether between two evaluations or in the middle of an instruction (`bindings_permanent`).
-/

namespace RefMachine

variable {m m' : Machine} {host : Multiset Value} {s s' : Machine × Multiset Value} {passed tail : List Machine}

/-! ## Wider scopes -/

namespace Machine

theorem resizeScope_upholds (names : VariableNames) (m : Machine) :
    Ends (fun _ m' => m.scope.Upholds m'.scope) (fun _ _ => True) (resizeScope names m) := by
  refine Ends.bind_get ?_
  split_ifs with hsize
  · have hcopy : Ends (fun wider _ => m.scope.Upholds wider) (fun _ _ => True) (onHeap (m.scope.copy names) m) := by
      refine onHeap_ends ((m.scope.copy_bindings names m.heap).mono ?_ fun _ _ => id)
      intro wider _ hbindings i b hb
      rw [hbindings i (Nat.lt_trans (Scope.lt_size_of_binding? hb) hsize)]
      exact ⟨b, hb, rfl, fun _ => rfl⟩
    refine hcopy.bind fun wider m₁ hwider => Ends.bind_modify ?_
    refine (respects_upholds.releaseEach m.scope.values { m₁ with scope := wider }).mono ?_ fun _ _ _ => trivial
    exact fun _ _ hupholds => hwider.trans hupholds
  · exact .refl m.scope

theorem Accounts.resizeScope_preserves {ledger : Ledger} {names : VariableNames} (ha : m.Accounts ledger host)
    (hrun : resizeScope names m = .ok () m') : m.Preserves m' := by
  have hupholds := (resizeScope_upholds names m).of_ok hrun
  obtain ⟨-, -, hkeeps⟩ := (resizeScope_ends ha).of_ok hrun
  -- The values of the immutable variables are held by the new scope before the old one gives them up.
  have hsub := hupholds.constants_subset.trans (m'.constants_subset_roots host)
  exact ha.anchored.preserves_of_keeps hupholds (hkeeps.mono hsub)

end Machine

/-! ## Turns -/

/-- An evaluation, however it ends, a change to a wider scope, or the release of a value that the host holds, with the
machines that it passes through. Those of an evaluation are the machines of all its moments, and the one at its end. -/
inductive Turn : Machine × Multiset Value → List Machine → Machine × Multiset Value → Prop where
  | evaluate {m m' : Machine} {host : Multiset Value} {e : Expression} {v : Value}
    (hrun : Machine.evaluate e m = .ok v m') : Turn (m, host) (History.machinesOf e m ++ [m']) (m', v ::ₘ host)
  | fault {m m' : Machine} {host : Multiset Value} {e : Expression} {f : Fault}
    (hrun : Machine.evaluate e m = .error f m') : Turn (m, host) (History.machinesOf e m ++ [m']) (m', host)
  | resize {m m' : Machine} {host : Multiset Value} {names : VariableNames}
    (hrun : Machine.resizeScope names m = .ok () m') : Turn (m, host) [m'] (m', host)
  | release {m m' : Machine} {host : Multiset Value} {v : Value}
    (hrun : Machine.onHeap (Heap.release v) m = .ok () m') : Turn (m, v ::ₘ host) [m'] (m', host)

/-- Any number of turns, with the machines that they pass through. -/
inductive Course : Machine × Multiset Value → List Machine → Prop where
  | done (s : Machine × Multiset Value) : Course s []
  | turn {s s' : Machine × Multiset Value} {passed rest : List Machine} (hturn : Turn s passed s')
    (hrest : Course s' rest) : Course s (passed ++ rest)

theorem Turn.safe (hturn : Turn s passed s') (hsafe : s.1.Safe s.2) : s'.1.Safe s'.2 := by
  cases hturn with
  | evaluate hrun => exact Attempt.safe (.step (.evaluate hrun)) hsafe
  | fault hrun => exact Attempt.safe (.fault hrun) hsafe
  | resize hrun => exact Attempt.safe (.step (.resize hrun)) hsafe
  | release hrun => exact Attempt.safe (.step (.release hrun)) hsafe

theorem Turn.isChain (hturn : Turn s passed s') (hsafe : s.1.Safe s.2)
    (htail : (s'.1 :: tail).IsChain Machine.Preserves) : (s.1 :: (passed ++ tail)).IsChain Machine.Preserves := by
  have ha := hsafe.accounts
  cases hturn with
  | evaluate hrun =>
    rw [List.append_assoc]
    exact History.machinesOf_isChain ha (by rw [hrun]; rfl) htail
  | fault hrun =>
    rw [List.append_assoc]
    exact History.machinesOf_isChain ha (by rw [hrun]; rfl) htail
  | resize hrun => exact .cons_cons (Machine.Accounts.resizeScope_preserves ha hrun) htail
  | release hrun =>
    obtain ⟨⟨hpreserves, -⟩, -⟩ := (Machine.release_secures ha).of_ok hrun
    exact .cons_cons hpreserves htail

theorem Course.isChain (hcourse : Course s passed) (hsafe : s.1.Safe s.2) :
    (s.1 :: passed).IsChain Machine.Preserves := by
  induction hcourse with
  | done s => exact .singleton s.1
  | turn hturn _ ih => exact hturn.isChain hsafe (ih (hturn.safe hsafe))

/-- **Permanence of bindings.** From a safe machine, whatever is evaluated, however the evaluations end and however
often the scope gets wider, each machine on the way upholds the bindings of every machine before it, and what the
immutable variables of that one reach is live in both and the same. -/
theorem bindings_permanent (hsafe : m.Safe host) (hcourse : Course (m, host) passed) :
    (m :: passed).Pairwise Machine.Preserves :=
  List.IsChain.pairwise (hcourse.isChain hsafe)

/-- A variable is bound to a tuple for good, the scope gets wider, and an expression tries to bind the variable again. -/
theorem bindings_permanent_tuple :
    let bind : Expression := ⟨⟨0⟩, [.loadInteger 7, .newTuple 1, .assignVariable 0 .immutable]⟩
    let rebind : Expression := ⟨⟨0⟩, [.loadInteger 8, .assignVariable 0 .immutable]⟩
    let m₀ : Machine := { scope := ⟨#[{ name := "pair" }]⟩ }
    let m₁ := endState (Machine.evaluate bind m₀)
    let m₂ := endState (Machine.resizeScope { registry := { texts := #["pair", "other"] } } m₁)
    m₁.scope.binding? 0 = some ⟨.ref .tuple ⟨1⟩, .immutable⟩ ∧ m₁.heap.get? .tuple ⟨1⟩ = some [.integer 7] ∧
      outcome (Machine.evaluate rebind m₂) = .ok .error ∧
      (m₀ :: (History.machinesOf bind m₀ ++ [m₁] ++ ([m₂] ++
        (History.machinesOf rebind m₂ ++ [endState (Machine.evaluate rebind m₂)] ++ [])))).Pairwise
          Machine.Preserves := by
  intro bind rebind m₀ m₁ m₂
  have hbalanced : m₀.Balanced 0 := Heap.balanced_empty
  have hsafe : m₀.Safe 0 := (Machine.balanced_iff.mp hbalanced).safe
  have hbind : Machine.evaluate bind m₀ = .ok (.ref .tuple ⟨1⟩) m₁ := eq_ok_of_outcome (by decide +kernel)
  have hresize : Machine.resizeScope _ m₁ = .ok () m₂ := eq_ok_of_outcome (by decide +kernel)
  have hrebind : outcome (Machine.evaluate rebind m₂) = .ok .error := by decide +kernel
  refine ⟨by decide +kernel, by decide +kernel, hrebind, bindings_permanent hsafe ?_⟩
  exact .turn (.evaluate hbind) (.turn (.resize hresize) (.turn (.evaluate (eq_ok_of_outcome hrebind)) (.done _)))

end RefMachine
