import RefMachine.Proofs.Machine.Draws
import RefMachine.Proofs.Machine.Evaluate

/-!
# Error values are never stored

A machine that stores no error value stores none after an evaluation, however that ends: instructions carry no error
value then (`Draws.clean`), and one that an expression yields is not pushed.
-/

namespace RefMachine

theorem Scope.error_not_mem_setBinding {scope : Scope} {index : Nat} {b : Binding} (hclean : .error ∉ scope.values)
    (hb : b.value ≠ .error) : .error ∉ (scope.setBinding index (some b)).values := by
  intro hmem
  obtain ⟨i, b', hb', hvalue⟩ := exists_of_mem_values hmem
  by_cases hi : i = index
  · subst hi
    have hlt := lt_size_of_binding? hb'
    rw [size_setBinding] at hlt
    rw [binding?_setBinding_self hlt] at hb'
    cases hb'
    exact hb hvalue
  · rw [binding?_setBinding_of_ne hi] at hb'
    exact hclean (hvalue ▸ value_mem_values hb')

namespace Machine

variable {ε α : Type} {m : Machine} {v : Value} {evaluate : Expression → MachineM Fault Value}

theorem clean_new (literals : Literals) (limits : Limits) : Clean { literals := literals, limits := limits } := by
  refine ⟨List.not_mem_nil, List.not_mem_nil, fun hcontains => ?_⟩
  generalize Value.error = v at hcontains
  cases hcontains with
  | @item h items _ hget hv =>
    cases hpins : Kind.tuple.pins h with
    | true =>
      have hempty := Heap.wellFormed_empty.get?_of_pins hpins
      cases hget.symm.trans hempty
      cases hv
    | false => cases hget.symm.trans (Heap.get?_empty hpins)
  | @head h cell hsentinel hget =>
    have hpins : Kind.list.pins h = false := hsentinel
    cases hget.symm.trans (Heap.get?_empty hpins)

/-! ## Operations -/

theorem Clean.dropped (hclean : m.Clean) (n : Nat) : (m.dropped n).Clean :=
  ⟨fun hmem => hclean.stack (List.mem_of_mem_drop hmem), hclean.scope, hclean.heap⟩

theorem Clean.pushed (hclean : m.Clean) (hv : v ≠ .error) : { m with stack := v :: m.stack }.Clean := by
  refine ⟨fun hmem => ?_, hclean.scope, hclean.heap⟩
  rcases List.mem_cons.mp hmem with heq | hmem
  · exact hv heq.symm
  · exact hclean.stack hmem

theorem onHeap_clean {f : HeapM α} (hclean : m.Clean) (hf : Heap.Clears f) : EndsIn Clean (onHeap f m) := by
  refine onHeap_ends ((hf m.heap hclean.heap).imp ?_)
  exact fun _ hheap => ⟨hclean.stack, hclean.scope, hheap⟩

theorem faulting_clean {f : HeapM α} (hclean : m.Clean) (hf : Heap.Clears f) : EndsIn Clean (faulting f m) :=
  Ends.adaptExcept (onHeap_clean hclean hf)

theorem share_clean (hclean : m.Clean) (hv : v ≠ .error) : EndsIn Clean (share v m) :=
  (faulting_clean hclean (Heap.clears_retain v)).bind fun _ _ hclean' => hclean'.pushed hv

theorem pop?_clean (hclean : m.Clean) : EndsIn Clean ((pop? : MachineM ε (Option Value)) m) := by
  cases hstack : m.stack with
  | nil =>
    rw [pop?_of_nil hstack]
    exact hclean
  | cons v rest =>
    rw [pop?_of_cons hstack]
    exact hclean.dropped 1

theorem discard_clean (hclean : m.Clean) (n : Nat) : EndsIn Clean (discard n m) := by
  induction n generalizing m with
  | zero => exact hclean
  | succ n ih =>
    refine (pop?_clean hclean).bind fun v m₁ hclean₁ => ?_
    cases v with
    | none => exact hclean₁
    | some v => exact (onHeap_clean hclean₁ (Heap.clears_release v)).bind fun _ _ => ih

theorem packTuple_clean (hclean : m.Clean) (arity : Nat) : EndsIn Clean (packTuple arity m) := by
  refine Ends.bind_get ?_
  split_ifs
  · exact hclean
  · refine Ends.bind_modify (Ends.adaptExcept (onHeap_clean (hclean.dropped arity) (Heap.clears_newTuple ?_)))
    exact fun hmem => hclean.stack (List.mem_of_mem_take hmem)

theorem bindVariable_clean (hclean : m.Clean) (hv : v ≠ .error) (index : Nat) (mutability : Mutability) :
    EndsIn Clean (bindVariable index v mutability m) := by
  have hretain : EndsIn Clean ((onHeap (Heap.retain v)).adaptExcept ScopeError.heap m) :=
    Ends.adaptExcept (onHeap_clean hclean (Heap.clears_retain v))
  refine Ends.bind_get ?_
  cases m.scope.lookup index with
  | error e => exact hclean
  | ok binding =>
    cases binding with
    | none =>
      refine hretain.bind fun _ m₁ hclean₁ => ?_
      exact ⟨hclean₁.stack, Scope.error_not_mem_setBinding hclean₁.scope hv, hclean₁.heap⟩
    | some old =>
      dsimp only
      split_ifs
      · refine hretain.bind fun _ m₁ hclean₁ => ?_
        have hrelease : EndsIn Clean ((onHeap (Heap.release old.value)).adaptExcept ScopeError.heap m₁) :=
          Ends.adaptExcept (onHeap_clean hclean₁ (Heap.clears_release _))
        refine hrelease.bind fun _ m₂ hclean₂ => ?_
        exact ⟨hclean₂.stack, Scope.error_not_mem_setBinding hclean₂.scope hv, hclean₂.heap⟩
      · exact ⟨hclean.stack, hclean.scope, hclean.heap⟩

/-! ## Leaving an expression -/

theorem afterwards_clean {f : Machine → Machine} {r : EStateM.Result ε Machine α} (hr : EndsIn Clean r)
    (hf : ∀ m, Clean m → (f m).Clean) : EndsIn Clean (afterwards f r) := by
  cases r with
  | ok a m => exact hf m hr
  | error e m => exact hf m hr

theorem report_clean (hclean : m.Clean) (d : Diagnostic) : { m with diagnostics := m.diagnostics ++ [d] }.Clean :=
  ⟨hclean.stack, hclean.scope, hclean.heap⟩

theorem abandon_clean (hclean : m.Clean) (entry : Nat) : EndsIn Clean (abandon entry m) := by
  have hunwind : EndsIn Clean (unwindTo entry m) := Ends.adaptExcept (discard_clean hclean _)
  exact hunwind.bind fun _ _ => id

theorem takeResult_clean (hclean : m.Clean) (entry : Nat) : EndsIn Clean (takeResult entry m) := by
  refine Ends.bind_get ?_
  split_ifs
  · exact Ends.bind_modify (report_clean hclean _)
  · exact (pop?_clean hclean).bind fun _ _ => id
  · refine (pop?_clean hclean).bind fun v m₁ hclean₁ => Ends.bind_modify ?_
    refine Ends.bind (Ends.adaptExcept (onHeap_clean (report_clean hclean₁ _) (Heap.clears_release _))) ?_
    exact fun _ _ hclean₂ => abandon_clean hclean₂ entry

theorem leave_clean {r : EStateM.Result Halt Machine Unit} (hr : EndsIn Clean r) (entry : Nat) :
    EndsIn Clean (leave entry r) := by
  cases r with
  | ok a m => exact takeResult_clean hr entry
  | error halt m =>
    cases halt with
    | diagnostic d => exact Ends.bind_modify (abandon_clean (report_clean hr d) entry)
    | reported => exact abandon_clean hr entry
    | fault f => exact hr

/-! ## Evaluation -/

section Nested

variable (hev : ∀ e m, Clean m → EndsIn Clean (evaluate e m))

include hev

theorem nest_clean (hclean : m.Clean) (e : Expression) : EndsIn Clean (nest evaluate e m) := by
  refine afterwards_clean (hev e _ ⟨hclean.stack, hclean.scope, hclean.heap⟩) ?_
  exact fun _ hm => ⟨hm.stack, hm.scope, hm.heap⟩

theorem perform_clean {action : Action} (hclean : m.Clean) (hcarried : .error ∉ action.carried) :
    EndsIn Clean (perform evaluate action m) := by
  cases action with
  | skip => exact hclean
  | push v => exact share_clean hclean (Value.error_not_mem_singleton.mp hcarried)
  | intern text =>
    refine (faulting_clean hclean (Heap.clears_internString text)).bind fun h m₁ hclean₁ => ?_
    exact share_clean hclean₁ (by simp)
  | replace old new =>
    have hnew : new ≠ .error := Value.error_not_mem_singleton.mp hcarried
    refine (faulting_clean hclean (Heap.clears_retain new)).bind fun _ m₁ hclean₁ => ?_
    have hclean₂ := (hclean₁.dropped 1).pushed hnew
    exact Ends.bind_modify (Ends.bind_modify (faulting_clean hclean₂ (Heap.clears_release old)))
  | compare result => exact Ends.bind_modify ((hclean.dropped 2).pushed (by simp))
  | pack arity =>
    refine Ends.bind (Ends.adaptExcept (packTuple_clean hclean arity)) fun h m₁ hclean₁ => ?_
    exact share_clean hclean₁ (by simp)
  | quote e =>
    refine Ends.bind_modify (Ends.bind (Ends.adaptExcept (discard_clean (hclean.dropped 1) _)) fun _ m₁ hclean₁ => ?_)
    refine (faulting_clean hclean₁ (Heap.clears_newExpression e)).bind fun h m₂ hclean₂ => ?_
    exact share_clean hclean₂ (by simp)
  | evaluate handle e =>
    have hrelease := faulting_clean (hclean.dropped 1) (Heap.clears_release handle)
    refine Ends.bind_modify (hrelease.bind fun _ m₁ hclean₁ => ?_)
    refine Ends.bind (Ends.adaptExcept (nest_clean hev hclean₁ e)) fun v m₂ hclean₂ => ?_
    split_ifs with hv
    · exact hclean₂
    · exact hclean₂.pushed fun heq => hv (Value.isError_iff.mpr heq)
  | cons head tail =>
    have hhead : head ≠ .error := Value.error_not_mem_singleton.mp hcarried
    have hcons := faulting_clean (hclean.dropped 2) (Heap.clears_cons hhead tail)
    refine Ends.bind_modify (hcons.bind fun h m₁ hclean₁ => ?_)
    exact share_clean hclean₁ (by simp)
  | assign v index mutability =>
    have hv : v ≠ .error := Value.error_not_mem_singleton.mp hcarried
    have hbind : EndsIn Clean
        ((bindVariable index v mutability).adaptExcept (fun e => Halt.fault (.ofScopeError e)) (m.dropped 1)) :=
      Ends.adaptExcept (bindVariable_clean (hclean.dropped 1) hv index mutability)
    refine Ends.bind_modify (hbind.bind fun bound m₁ hclean₁ => ?_)
    split_ifs with hbound
    · exact (faulting_clean hclean₁ (Heap.clears_release v)).bind fun _ _ => id
    · exact hclean₁.pushed fun heq => hbound (Value.isError_iff.mpr heq)

theorem step_clean (hclean : m.Clean) (i : Instruction) : EndsIn Clean (step evaluate i m) := by
  have hdraws := m.resolve_draws i
  refine Ends.bind_get ?_
  cases hresolve : m.resolve i with
  | ok action =>
    rw [hresolve] at hdraws
    exact perform_clean hev hclean (hdraws.clean hclean)
  | error halt => exact hclean

theorem runCode_clean (hclean : m.Clean) (code : List Instruction) : EndsIn Clean (runCode evaluate code m) := by
  induction code generalizing m with
  | nil => exact hclean
  | cons i rest ih => exact (step_clean hev hclean i).bind fun _ _ => ih

theorem enter_clean (e : Expression) (hclean : m.Clean) : EndsIn Clean (enter evaluate e m) := by
  cases hcode : e.code.isEmpty with
  | true =>
    rw [enter_of_isEmpty hcode]
    exact hclean
  | false =>
    rw [enter_of_code hcode]
    refine afterwards_clean (leave_clean (runCode_clean hev ?_ e.code) _) ?_
    · exact ⟨hclean.stack, hclean.scope, hclean.heap⟩
    · exact fun _ hm => ⟨hm.stack, hm.scope, hm.heap⟩

end Nested

theorem evaluateWithin_clean (room : Nat) (e : Expression) (hclean : m.Clean) :
    EndsIn Clean (evaluateWithin room e m) := by
  induction room generalizing e m with
  | zero => exact enter_clean (fun _ _ => id) e hclean
  | succ room ih => exact enter_clean (fun e _ => ih e) e hclean

/-- `evaluate` stores no error value in a machine that is clean. -/
theorem evaluate_clean (e : Expression) (hclean : m.Clean) : EndsIn Clean (Machine.evaluate e m) :=
  evaluateWithin_clean _ e hclean

end Machine

end RefMachine
