import RefMachine.Proofs.Heap.Calls
import RefMachine.Proofs.Machine.Evaluate
import RefMachine.Proofs.Machine.Quotation

/-!
# The changes of an evaluation

Whatever an instruction does comes about by single changes (`Machine.Change`): values are pushed or popped, the frame or
the depth moves, a diagnostic is reported, the heap is called, or a variable is bound that was unset or mutable. A
preorder on machines that every single change respects (`Machine.Respects`) holds between the machines before and after
an evaluation, whatever the machine and however the evaluation ends (`Machine.Respects.evaluate`).
-/

namespace RefMachine

/-- The operands of a new expression are ones that its opcodes take. -/
def HeapCall.Fitting : HeapCall → Prop
  | .newExpression e => ∀ i ∈ e.code, i.fits = true
  | _ => True

/-- The operands of an expression that the action makes are ones that its opcodes take. -/
def Action.Fitting : Action → Prop
  | .quote e => ∀ i ∈ e.code, i.fits = true
  | _ => True

namespace Machine

variable {ε ε' α β : Type} {m m' : Machine} {r : Machine → Machine → Prop}

/-- A single change. -/
inductive Change : Machine → Machine → Prop where
  | stack (m : Machine) (stack : List Value) : Change m { m with stack := stack }
  | setting (m : Machine) (base depth : Nat) : Change m { m with base := base, depth := depth }
  | report (m : Machine) (d : Diagnostic) : Change m { m with diagnostics := m.diagnostics ++ [d] }
  | heap (m : Machine) {call : HeapCall} (hfits : call.Fitting) : Change m { m with heap := call.after m.heap }
  | bind (m : Machine) {index : Nat} {b : Binding}
    (hold : ∀ old, m.scope.binding? index = some old → old.mutability = .mutable ∧ b.mutability = .mutable) :
    Change m { m with scope := m.scope.setBinding index (some b) }

/-- A preorder on machines that every single change respects. -/
structure Respects (r : Machine → Machine → Prop) : Prop where
  refl : ∀ m, r m m
  trans : ∀ {m m' m''}, r m m' → r m' m'' → r m m''
  change : ∀ {m m'}, Change m m' → r m m'

/-- The relation holds between the machines before and after the operation, also where it fails. -/
def Along (r : Machine → Machine → Prop) (x : MachineM ε α) : Prop :=
  ∀ m, EndsIn (r m) (x m)

namespace Respects

variable (hr : Respects r)

include hr

theorem bind {x : MachineM ε α} {f : α → MachineM ε β} (hx : Along r x) (hf : ∀ a, Along r (f a)) :
    Along r (x >>= f) := by
  intro m
  have hfirst := hx m
  change EndsIn _ (EStateM.bind x f m)
  unfold EStateM.bind
  cases hrun : x m with
  | ok a m' => exact (hf a m').imp fun _ => hr.trans (hfirst.of_ok hrun)
  | error e m' => exact hfirst.of_error hrun

omit hr in
theorem get_bind {f : Machine → MachineM ε α} (hf : ∀ m, Along r (f m)) : Along r (get >>= f) :=
  fun m => hf m m

omit hr in
theorem adaptExcept {x : MachineM ε α} (hx : Along r x) (g : ε → ε') : Along r (x.adaptExcept g) :=
  fun m => Ends.adaptExcept (hx m)

/-! ## Operations -/

theorem pure (a : α) : Along r (pure a : MachineM ε α) :=
  hr.refl

theorem throw (e : ε) : Along r (throw e : MachineM ε α) :=
  hr.refl

theorem push (v : Value) : Along r (push v : MachineM ε Unit) :=
  fun m => hr.change (.stack m (v :: m.stack))

theorem drop (n : Nat) : Along r (drop n : MachineM ε Unit) :=
  fun m => hr.change (.stack m (m.stack.drop n))

theorem report (d : Diagnostic) : Along r (report d : MachineM ε Unit) :=
  fun m => hr.change (.report m d)

theorem onHeap {f : HeapM α} {call : HeapCall} {g : α → Option Value}
    (hrun : call.run = f >>= fun a => Pure.pure (g a)) (hfits : call.Fitting) : Along r (onHeap f) := by
  intro m
  have hchange := hr.change (Change.heap m hfits)
  rw [HeapCall.after, hrun] at hchange
  change r m { m with heap := endState (EStateM.bind f _ m.heap) } at hchange
  unfold EStateM.bind at hchange
  rw [onHeap_eq]
  cases hf : f m.heap with
  | ok a heap' =>
    rw [hf] at hchange
    exact hchange
  | error e heap' =>
    rw [hf] at hchange
    exact hchange

theorem retain (v : Value) : Along r (Machine.onHeap (Heap.retain v)) :=
  hr.onHeap (@rfl _ (HeapCall.run (.retain v))) trivial

theorem release (v : Value) : Along r (Machine.onHeap (Heap.release v)) :=
  hr.onHeap (@rfl _ (HeapCall.run (.release v))) trivial

theorem releaseEach (vs : List Value) : Along r (vs.forM fun v => Machine.onHeap (Heap.release v)) := by
  induction vs with
  | nil => exact hr.pure ()
  | cons v rest ih => exact hr.bind (hr.release v) fun _ => ih

theorem share (v : Value) : Along r (share v) :=
  hr.bind (adaptExcept (hr.retain v) _) fun _ => hr.push v

theorem shareNew {k : Kind} {new : HeapM Handle} {call : HeapCall} (hrun : call.run = HeapCall.allocate k new)
    (hfits : call.Fitting) : Along r (faulting new >>= fun h => Machine.share (.ref k h)) :=
  hr.bind (adaptExcept (hr.onHeap hrun hfits) _) fun h => hr.share (.ref k h)

theorem pop? : Along r (pop? : MachineM ε (Option Value)) := by
  refine get_bind fun m => ?_
  cases m.stack with
  | nil => exact hr.pure none
  | cons v rest => exact hr.bind (hr.drop 1) fun _ => hr.pure (some v)

theorem discard (n : Nat) : Along r (discard n) := by
  induction n with
  | zero => exact hr.pure ()
  | succ n ih =>
    refine hr.bind hr.pop? fun v => ?_
    cases v with
    | none => exact hr.pure ()
    | some v => exact hr.bind (hr.release v) fun _ => ih

theorem packTuple (arity : Nat) : Along r (packTuple arity) := by
  refine get_bind fun m => ?_
  dsimp only
  split_ifs
  · exact hr.throw _
  · refine hr.bind (hr.drop arity) fun _ => adaptExcept ?_ _
    exact hr.onHeap (@rfl _ (HeapCall.run (.newTuple (m.stack.take arity)))) trivial

theorem bindVariable (index : Nat) (v : Value) (mutability : Mutability) :
    Along r (bindVariable index v mutability) := by
  intro m
  -- The scope is the same until the binding is set, so that it can be told from the first lookup whether it may be.
  have hheap : ∀ {f : HeapM Unit} {m₁ : Machine}, Along r (Machine.onHeap f) → r m m₁ → m₁.scope = m.scope →
      Ends (fun _ m' => r m m' ∧ m'.scope = m.scope) (fun _ m' => r m m')
        ((Machine.onHeap f).adaptExcept ScopeError.heap m₁) := by
    intro f m₁ hf hm₁ hscope
    have hsame : EndsIn (fun m' => m'.scope = m₁.scope) (Machine.onHeap f m₁) :=
      onHeap_ends (.of_forall (fun _ _ => rfl) (fun _ _ => rfl) _)
    have hends := hf m₁
    refine Ends.adaptExcept ?_
    cases hrun : Machine.onHeap f m₁ with
    | ok a m' => exact ⟨hr.trans hm₁ (hends.of_ok hrun), (hsame.of_ok hrun).trans hscope⟩
    | error e m' => exact hr.trans hm₁ (hends.of_error hrun)
  refine Ends.bind_get ?_
  rcases m.scope.lookup_cases index with ⟨-, hlookup⟩ | ⟨-, hlookup⟩
  · rw [hlookup]
    cases hold : m.scope.binding? index with
    | none =>
      refine (hheap (hr.retain v) (hr.refl m) rfl).bind ?_
      rintro - m₁ ⟨hm₁, hscope⟩
      refine hr.trans hm₁ (hr.change (.bind m₁ fun old hsome => ?_))
      rw [hscope, hold] at hsome
      cases hsome
    | some old =>
      dsimp only
      split_ifs with hmutable
      · refine (hheap (hr.retain v) (hr.refl m) rfl).bind ?_
        rintro - m₁ ⟨hm₁, hscope₁⟩
        refine (hheap (hr.release old.value) hm₁ hscope₁).bind ?_
        rintro - m₂ ⟨hm₂, hscope₂⟩
        refine hr.trans hm₂ (hr.change (.bind m₂ fun old' hsome => ?_))
        rw [hscope₂, hold] at hsome
        cases hsome
        exact ⟨hmutable.2, hmutable.2⟩
      · exact hr.change (.report m .immutableRebind)
  · rw [hlookup]
    exact hr.refl m

/-! ## Leaving an expression -/

theorem abandon (entry : Nat) : Along r (abandon entry) :=
  hr.bind (get_bind fun _ => adaptExcept (hr.discard _) _) fun _ => hr.pure _

theorem takeResult (entry : Nat) : Along r (takeResult entry) := by
  refine get_bind fun m => ?_
  dsimp only
  split_ifs
  · exact hr.bind (hr.report _) fun _ => hr.pure _
  · exact hr.bind hr.pop? fun _ => hr.pure _
  · refine hr.bind hr.pop? fun v => hr.bind (hr.report _) fun _ => ?_
    exact hr.bind (adaptExcept (hr.release _) _) fun _ => hr.abandon entry

theorem leave {result : EStateM.Result Halt Machine Unit} (hresult : EndsIn (r m) result) (entry : Nat) :
    EndsIn (r m) (leave entry result) := by
  cases result with
  | ok a m₁ => exact (hr.takeResult entry m₁).imp fun _ => hr.trans hresult
  | error halt m₁ =>
    cases halt with
    | diagnostic d =>
      have hreport : Along r (do Machine.report d; Machine.abandon entry : MachineM Fault Value) :=
        hr.bind (hr.report d) fun _ => hr.abandon entry
      exact (hreport m₁).imp fun _ => hr.trans hresult
    | reported => exact (hr.abandon entry m₁).imp fun _ => hr.trans hresult
    | fault f => exact hresult

theorem afterwards {f : Machine → Machine} {result : EStateM.Result ε Machine α} (hresult : EndsIn (r m) result)
    (hf : ∀ m, Change m (f m)) : EndsIn (r m) (afterwards f result) := by
  cases result with
  | ok a m₁ => exact hr.trans hresult (hr.change (hf m₁))
  | error e m₁ => exact hr.trans hresult (hr.change (hf m₁))

/-! ## Evaluation -/

section Nested

variable {evaluate : Expression → MachineM Fault Value} (hev : ∀ e, Along r (evaluate e))

include hev

theorem nest (e : Expression) : Along r (nest evaluate e) := by
  intro m
  have hdeeper := hr.change (.setting m m.base (m.depth + 1))
  refine hr.afterwards ((hev e _).imp fun _ => hr.trans hdeeper) fun m' => ?_
  exact .setting m' m'.base (m'.depth - 1)

theorem perform {action : Action} (hfits : action.Fitting) : Along r (perform evaluate action) := by
  cases action with
  | skip => exact hr.pure ()
  | push v => exact hr.share v
  | intern text => exact hr.shareNew (@rfl _ (HeapCall.run (.internString text))) trivial
  | replace old new =>
    refine hr.bind (adaptExcept (hr.retain new) _) fun _ => hr.bind (hr.drop 1) fun _ => ?_
    exact hr.bind (hr.push new) fun _ => adaptExcept (hr.release old) _
  | compare result => exact hr.bind (hr.drop 2) fun _ => hr.push (.boolean result)
  | pack arity => exact hr.bind (adaptExcept (hr.packTuple arity) _) fun h => hr.share (.ref .tuple h)
  | quote e =>
    refine hr.bind (hr.drop 1) fun _ => hr.bind (adaptExcept (hr.discard _) _) fun _ => ?_
    exact hr.shareNew (@rfl _ (HeapCall.run (.newExpression e))) hfits
  | evaluate handle e =>
    refine hr.bind (hr.drop 1) fun _ => hr.bind (adaptExcept (hr.release handle) _) fun _ => ?_
    refine hr.bind (adaptExcept (hr.nest hev e) _) fun v => ?_
    split_ifs
    · exact hr.throw _
    · exact hr.push v
  | cons head tail =>
    exact hr.bind (hr.drop 2) fun _ => hr.shareNew (@rfl _ (HeapCall.run (.cons head tail))) trivial
  | assign v index mutability =>
    refine hr.bind (hr.drop 1) fun _ => hr.bind (adaptExcept (hr.bindVariable index v mutability) _) fun bound => ?_
    split_ifs
    · exact hr.bind (adaptExcept (hr.release v) _) fun _ => hr.throw _
    · exact hr.push bound

theorem step (i : Instruction) : Along r (step evaluate i) := by
  intro m
  have hquotes := m.resolve_quotes i
  refine Ends.bind_get ?_
  cases hresolve : m.resolve i with
  | error halt => exact hr.refl m
  | ok action =>
    rw [hresolve] at hquotes
    refine hr.perform hev ?_ m
    cases action with
    | quote e =>
      obtain ⟨n, -, he⟩ := hquotes e rfl
      exact he.fits
    | _ => trivial

theorem runCode (code : List Instruction) : Along r (runCode evaluate code) := by
  induction code with
  | nil => exact hr.pure ()
  | cons i rest ih => exact hr.bind (hr.step hev i) fun _ => ih

theorem enter (e : Expression) : Along r (enter evaluate e) := by
  intro m
  cases hcode : e.code.isEmpty with
  | true =>
    rw [enter_of_isEmpty hcode]
    exact hr.refl m
  | false =>
    have hopened := hr.change (.setting m m.stack.length m.depth)
    rw [enter_of_code hcode]
    refine hr.afterwards (hr.leave ((hr.runCode hev e.code _).imp fun _ => hr.trans hopened) _) fun m' => ?_
    exact .setting m' m.base m'.depth

end Nested

/-- A preorder that every `Change` respects holds between the machines before and after an evaluation. -/
theorem evaluateWithin (room : Nat) (e : Expression) : Along r (evaluateWithin room e) := by
  induction room generalizing e with
  | zero => exact hr.enter (fun _ => hr.pure _) e
  | succ room ih => exact hr.enter ih e

theorem evaluate (e : Expression) : Along r (Machine.evaluate e) :=
  fun m => hr.evaluateWithin _ e m

end Respects

end Machine

end RefMachine
