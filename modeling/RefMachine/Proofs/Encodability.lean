import RefMachine.Proofs.Frames
import RefMachine.Proofs.Machine.Changes
import RefMachine.Proofs.RoundTrip

/-!
# Expressions of a program can be written

A program may make expressions of any tuples that it has. Those whose operands do not fit are refused, and nothing else
puts an expression on the heap, so that the expressions of a heap keep operands that fit, whatever is evaluated and however
that ends (`Heap.Encodable`). Hence an expression that a program makes can be written and read again
(`made_expressions_encodable`).
-/

namespace RefMachine

/-! ## The expressions of a heap -/

namespace Heap

variable {heap : Heap}

/-- Every expression of the heap has operands that fit. -/
def Encodable (heap : Heap) : Prop :=
  ∀ h e, heap.get? .expression h = some e → ∀ i ∈ e.code, i.fits = true

theorem encodable_iff : heap.Encodable ↔ heap.Every fun k _ x =>
    ∀ e, (⟨k, x⟩ : (k : Kind) × k.Content) = ⟨.expression, e⟩ → ∀ i ∈ e.code, i.fits = true := by
  constructor
  · intro hheap k h x hget e heq
    cases heq
    exact hheap h e hget
  · intro hevery h e hget
    exact hevery .expression h e hget e rfl

theorem encodable_empty : empty.Encodable := by
  intro h e hget
  cases hget.symm.trans (get?_empty (k := .expression) rfl)

end Heap

theorem HeapCall.Fitting.encodable {call : HeapCall} {heap : Heap} (hfits : call.Fitting) (hheap : heap.Encodable) :
    (call.after heap).Encodable := by
  rw [Heap.encodable_iff] at hheap ⊢
  -- A call answers with what the operation made, and does nothing to the heap after it.
  have hthen : ∀ {α : Type} {f : HeapM α} {g : α → Option Value}, Heap.Maintains (fun k _ x =>
      ∀ e, (⟨k, x⟩ : (k : Kind) × k.Content) = ⟨.expression, e⟩ → ∀ i ∈ e.code, i.fits = true) f →
      EndsIn (Heap.Every _) ((f >>= fun a => pure (g a)) heap) :=
    fun hf => (hf heap hheap).bind fun _ _ hheap' => hheap'
  refine EndsIn.endState ?_
  cases call with
  | retain v => exact hthen (Heap.maintains_retain v)
  | release v => exact hthen (Heap.maintains_release v)
  | newString text => exact hthen (Heap.maintains_insert fun _ e heq => by cases heq)
  | internString text => exact hthen (Heap.maintains_internString fun _ e heq => by cases heq)
  | newTuple items => exact hthen (Heap.maintains_insert fun _ e heq => by cases heq)
  | cons head tail => exact hthen (Heap.maintains_cons fun _ e heq => by cases heq)
  | newList items => exact hthen (Heap.maintains_newList fun _ _ _ _ e heq => by cases heq)
  | newExpression e =>
    refine hthen (Heap.maintains_insert fun _ e' heq => ?_)
    cases heq
    exact hfits

namespace Machine

variable {m m' : Machine} {i : Instruction} {n : Nat}

theorem respects_encodable : Respects fun m m' => m.heap.Encodable → m'.heap.Encodable where
  refl m := id
  trans h h' := h' ∘ h
  change hchange := by
    cases hchange with
    | heap hfits => exact hfits.encodable
    | stack | setting | report | bind => exact id

theorem respects_wellFormed : Respects fun m m' => m.heap.WellFormed → m'.heap.WellFormed where
  refl m := id
  trans h h' := h' ∘ h
  change hchange := by
    cases hchange with
    | @heap call _ => exact fun hw => (call.follows hw).wellFormed
    | stack | setting | report | bind => exact id

/-! ## Making an expression -/

theorem discard_stack (n : Nat) (m : Machine) :
    Ends (fun _ m' => m'.stack = m.stack.drop n) (fun _ _ => True) (discard n m) := by
  induction n generalizing m with
  | zero => rfl
  | succ n ih =>
    cases hstack : m.stack with
    | nil =>
      rw [discard_of_nil hstack]
      exact hstack
    | cons v rest =>
      rw [discard_of_cons hstack]
      have hrelease : Ends (fun _ m' => m'.stack = rest) (fun _ _ => True) (onHeap (Heap.release v) (m.dropped 1)) := by
        refine onHeap_ends (.of_forall (fun _ _ => ?_) (fun _ _ => trivial) _)
        change m.stack.drop 1 = rest
        rw [hstack]
        rfl
      refine hrelease.bind fun _ m₁ hm₁ => ?_
      rw [List.drop_succ_cons, ← hm₁]
      exact ih m₁

theorem shareNew_expression (e : Expression) (m : Machine) :
    Ends (fun _ m' => ∃ h, m'.stack = .ref .expression h :: m.stack ∧
        (m.heap.WellFormed → m'.heap.get? .expression h = some e)) (fun _ _ => True)
      ((faulting (Heap.newExpression e) >>= fun h => share (.ref .expression h)) m) := by
  have hnew : Ends (fun h heap' => m.heap.WellFormed → heap'.WellFormed ∧ heap'.get? .expression h = some e)
      (fun _ _ => True) (Heap.newExpression e m.heap) := by
    by_cases hw : m.heap.WellFormed
    · rcases Heap.insert_cases hw (k := .expression) e with ⟨h, heap', hrun, -, hu, hw', -⟩ | hrun
      · rw [Heap.newExpression, hrun]
        exact fun _ => ⟨hw', hu.get?_self⟩
      · rw [Heap.newExpression, hrun]
        trivial
    · exact .of_forall (fun _ _ hw' => absurd hw' hw) (fun _ _ => trivial) _
  refine bind_onHeap hnew (fun h heap₁ hheap₁ => ?_) fun _ _ _ => trivial
  have hretain : Ends (fun _ heap₂ => m.heap.WellFormed → heap₂.get? .expression h = some e) (fun _ _ => True)
      (Heap.retain (.ref .expression h) heap₁) := by
    by_cases hw : m.heap.WellFormed
    · obtain ⟨hw₁, hget⟩ := hheap₁ hw
      exact (Heap.retain_adds hw₁ _).mono (fun _ _ hadds _ => hadds.extension .expression h e hget)
        fun _ _ _ => trivial
    · exact .of_forall (fun _ _ hw' => absurd hw' hw) (fun _ _ => trivial) _
  refine bind_onHeap hretain (fun _ heap₂ hget => ?_) fun _ _ _ => trivial
  exact ⟨h, rfl, hget⟩

theorem quote_makes (e : Expression) (m : Machine) (evaluate : Expression → MachineM Fault Value) :
    Ends (fun _ m' => ∃ h, m'.stack = .ref .expression h :: m.stack.drop (e.code.length + 1) ∧
        (m.heap.WellFormed → m'.heap.get? .expression h = some e)) (fun _ _ => True)
      (perform evaluate (.quote e) m) := by
  have hdiscard : Ends (fun _ m₁ => m₁.stack = m.stack.drop (e.code.length + 1) ∧
      (m.heap.WellFormed → m₁.heap.WellFormed)) (fun _ _ => True) (discard e.code.length (m.dropped 1)) := by
    have hstack := discard_stack e.code.length (m.dropped 1)
    have hwellFormed := respects_wellFormed.discard e.code.length (m.dropped 1)
    cases hrun : discard e.code.length (m.dropped 1) with
    | error err m₁ => trivial
    | ok u m₁ =>
      refine ⟨(hstack.of_ok hrun).trans ?_, hwellFormed.of_ok hrun⟩
      rw [List.drop_drop, Nat.add_comm]
  refine Ends.bind_modify (Ends.bind (Ends.adaptExcept hdiscard) ?_)
  rintro - m₁ ⟨hstack, hw⟩
  refine (shareNew_expression e m₁).mono ?_ fun _ _ => id
  rintro - m₂ ⟨h, hstack', hget⟩
  exact ⟨h, hstack ▸ hstack', fun hwellFormed => hget (hw hwellFormed)⟩

theorem lt_of_natBelow? {bound : Nat} {v : Value} (hv : v.natBelow? bound = some n) : n < bound := by
  cases v with
  | integer k =>
    simp only [Value.natBelow?, Option.ite_none_right_eq_some, Option.some.injEq] at hv
    omega
  | _ => cases hv

theorem lt_of_newExpression (hoperation : i.operation? = some (.newExpression n)) : n < 65536 := by
  obtain ⟨opcode, operand⟩ := i
  cases opcode with
  | newExpression =>
    obtain ⟨n', hn', heq⟩ := Option.map_eq_some_iff.mp hoperation
    cases heq
    exact lt_of_natBelow? hn'
  | _ => simp [Instruction.operation?, Instruction.bare?, Instruction.constant?] at hoperation

end Machine

/-- **Expressions made at run time can be written.** `evaluate` keeps the operands of all expressions in the heap
fitting, however it ends. An instruction that makes an expression of `n` instructions pushes a handle to the one that is
spelled by the `n` tuples below the type on top, and what `encode` writes of it is read as the expression itself. A new
machine has no expressions. -/
theorem made_expressions_encodable :
    (∀ (m : Machine) (e : Expression), m.heap.Encodable → (endState (Machine.evaluate e m)).heap.Encodable) ∧
    (∀ (evaluate : Expression → MachineM Fault Value) (m m' : Machine) (i : Instruction) (n : Nat),
      i.operation? = some (.newExpression n) → Machine.step evaluate i m = .ok () m' →
      ∃ h e, m'.stack = .ref .expression h :: m.stack.drop (n + 1) ∧
        (m.heap.WellFormed → m'.heap.get? .expression h = some e) ∧ m.Quotes n e ∧
        ∃ bytes, e.encode = .ok bytes ∧ Expression.decode bytes = .ok e) ∧
    ∀ literals limits, Machine.heap { literals := literals, limits := limits } |>.Encodable := by
  refine ⟨fun m e => ?_, fun evaluate m m' i n hoperation hstep => ?_, fun _ _ => Heap.encodable_empty⟩
  · exact (Machine.respects_encodable.evaluate e m).endState
  · have hmakes := @Machine.resolve_newExpression i m n hoperation
    cases hresolve : m.resolve i with
    | error halt =>
      rw [Machine.step_of_halt hresolve] at hstep
      cases hstep
    | ok action =>
      rw [hresolve] at hmakes
      obtain ⟨e, rfl, hquotes⟩ := hmakes
      rw [Machine.step_of_resolve hresolve] at hstep
      obtain ⟨h, hstack, hget⟩ := (Machine.quote_makes e m evaluate).of_ok hstep
      rw [hquotes.length_eq] at hstack
      have hcount : e.code.length ≤ 0x7FFFFFFF := by
        have hlt := Machine.lt_of_newExpression hoperation
        have hlength := hquotes.length_eq
        omega
      exact ⟨h, e, hstack, hget, hquotes, e.bytes, Expression.encode_of_fits hcount hquotes.fits,
        Expression.decode_bytes hcount hquotes.fits⟩

/-- A machine that has spelled the loading of a number, and the type of numbers on top. -/
def spelledSeven : Machine :=
  endState (Machine.runCode Machine.evaluate
    [.loadInteger 7, .loadOpcode .loadInteger, .newTuple 2, .loadType .integer] {})

/-- The expression that is made of one tuple, and an evaluation that is stopped by an operand which does not fit. -/
theorem made_expressions_encodable_seven :
    (∃ m' h e, Machine.step Machine.evaluate (.newExpression 1) spelledSeven = .ok () m' ∧
      m'.stack = [.ref .expression h] ∧ m'.heap.get? .expression h = some e ∧ e.code = [.loadInteger 7] ∧
      ∃ bytes, e.encode = .ok bytes ∧ Expression.decode bytes = .ok e) ∧
    outcome (Machine.evaluate ⟨⟨0⟩, quotedSeven.code ++ [⟨.nop, .integer 7⟩]⟩ {}) = .ok .error ∧
    (endState (Machine.evaluate ⟨⟨0⟩, quotedSeven.code ++ [⟨.nop, .integer 7⟩]⟩ {})).heap.Encodable := by
  obtain ⟨hevaluate, hmake, hnew⟩ := made_expressions_encodable
  have hrun : Machine.step Machine.evaluate (.newExpression 1) spelledSeven = .ok () _ :=
    eq_ok_of_outcome (by decide +kernel)
  have hw : spelledSeven.heap.WellFormed :=
    (Machine.respects_wellFormed.runCode Machine.respects_wellFormed.evaluate _ {}).endState Heap.wellFormed_empty
  have hcode : (endState (Machine.step Machine.evaluate (.newExpression 1) spelledSeven)).stack =
        [.ref .expression ⟨0⟩] ∧
      ((endState (Machine.step Machine.evaluate (.newExpression 1) spelledSeven)).heap.get? .expression ⟨0⟩).map
        Expression.code = some [.loadInteger 7] := by
    decide +kernel
  refine ⟨?_, by decide +kernel, hevaluate _ _ (hnew {} {})⟩
  obtain ⟨h, e, hstack, hget, -, hbytes⟩ := hmake _ _ _ _ 1 (by decide +kernel) hrun
  obtain rfl : h = ⟨0⟩ := by
    rw [hcode.1] at hstack
    cases hstack
    rfl
  refine ⟨_, ⟨0⟩, e, hrun, hcode.1, hget hw, ?_, hbytes⟩
  have hsome := hcode.2
  rw [hget hw] at hsome
  exact Option.some.inj hsome

end RefMachine
