import RefMachine.Proofs.Heap.Restore
import RefMachine.Proofs.Machine.Calls

/-!
# Constants in expressions made at run time

A program can put a constant and the opcode that loads it into a pair, make an expression of the pair and evaluate it.
The constant then goes from the stack into a tuple of the heap and from there into the operand of an instruction. For a
number, a truth value, a type or an opcode, the operand means what the value meant, and the expression yields the
constant.

A text is a slot of the heap on the stack, and the number of a literal as an operand. The expression therefore loads the
literal whose number is that of the slot, and this is the text only where the two happen to agree; there may be another
literal of that number, or none. `reflected_constants` says so for every machine whose counts are exact and whose heap
has room: making the expression leaves the heap as it was, and then what is loaded is what loading that literal gives.
-/

namespace RefMachine

/-- The opcodes that load a constant which is no object of the heap. -/
def Opcode.inlineConstants : List Opcode :=
  [.loadInteger, .loadFloat, .loadBoolean, .loadType, .loadOpcode]

/-- The program that loads a constant with the instruction, makes an expression of the constant and the instruction's
opcode, and evaluates it. -/
def Instruction.reflected (i : Instruction) (t : TypeTag) : List Instruction :=
  [i, .loadOpcode i.opcode, .newTuple 2, .loadTag t, .newExpression 1, .evaluateExpression]

namespace Instruction

variable {i : Instruction}

theorem operation?_of_inlineConstants (hopcode : i.opcode ∈ Opcode.inlineConstants) (hfits : i.fits = true) :
    i.operation? = some (.push i.operand) := by
  obtain ⟨opcode, operand⟩ := i
  simp only [Opcode.inlineConstants, List.mem_cons, List.not_mem_nil, or_false] at hopcode
  rcases hopcode with rfl | rfl | rfl | rfl | rfl <;>
    · simp only [fits, operation?, constant?] at hfits ⊢
      split_ifs at hfits ⊢
      · rfl
      · cases hfits

theorem handle?_of_inlineConstants (hopcode : i.opcode ∈ Opcode.inlineConstants) (hfits : i.fits = true) :
    i.operand.handle? = none := by
  refine (Machine.constant_of_push (operation?_of_inlineConstants hopcode hfits)).resolve_left fun hempty => ?_
  -- The empty list is a constant too, but no operand that these opcodes take.
  have hempties : ∀ op ∈ Opcode.inlineConstants, (⟨op, .emptyList⟩ : Instruction).fits = false := by decide
  have hself : i = ⟨i.opcode, .emptyList⟩ := by rw [← hempty]
  rw [hself, hempties i.opcode hopcode] at hfits
  cases hfits

theorem width_of_inlineConstants (hopcode : i.opcode ∈ Opcode.inlineConstants) : i.opcode.width ≠ 0 := by
  have hwidths : ∀ op ∈ Opcode.inlineConstants, op.width ≠ 0 := by decide
  exact hwidths i.opcode hopcode

theorem instruction_eq_self (hwidth : i.opcode.width ≠ 0) (hfits : i.fits = true) :
    Check.instruction i.opcode i.operand = .ok i := by
  unfold Check.instruction
  simp only [if_neg hwidth]
  rw [if_pos hfits]

end Instruction

namespace Machine

variable {m : Machine} {evaluate : Expression → MachineM Fault Value} {i j : Instruction} {k : Kind} {h : Handle}
  {v : Value} {heap heap₁ heap₂ heap₃ : Heap} {pushed : List Value} {roots : Multiset Value}

/-! ## One instruction after the other -/

/-- The machine while it runs an expression that has pushed some values, top first. -/
def running (m : Machine) (heap : Heap) (pushed : List Value) : Machine :=
  { m with heap := heap, stack := pushed ++ m.stack, base := m.stack.length }

theorem frame_running : (m.running heap pushed).frame = pushed := by
  simp [frame, running]

theorem onHeap_of_ok {α : Type} {f : HeapM α} {a : α} (hf : f m.heap = .ok a heap₁) :
    onHeap f m = .ok a { m with heap := heap₁ } := by
  rw [onHeap_eq, hf]

theorem share_running (hretain : Heap.retain v heap = .ok () heap₁) :
    share v (m.running heap pushed) = .ok () (m.running heap₁ (v :: pushed)) := by
  have hrun : faulting (Heap.retain v) (m.running heap pushed) = .ok () (m.running heap₁ pushed) :=
    adaptExcept_apply_of_ok (onHeap_of_ok hretain) _
  rw [share, Carrier.run_eq, bind_apply_of_ok hrun]
  rfl

theorem shareNew_running {new : HeapM Handle} (hnew : new heap = .ok h heap₁)
    (hretain : Heap.retain (.ref k h) heap₁ = .ok () heap₂) :
    (faulting new >>= fun h => share (.ref k h)) (m.running heap pushed) =
      .ok () (m.running heap₂ (.ref k h :: pushed)) := by
  have hrun : faulting new (m.running heap pushed) = .ok h (m.running heap₁ pushed) :=
    adaptExcept_apply_of_ok (onHeap_of_ok hnew) _
  rw [bind_apply_of_ok hrun]
  exact share_running hretain

theorem step_push (hi : i.operation? = some (.push v)) (hv : v.handle? = none) :
    step evaluate i (m.running heap pushed) = .ok () (m.running heap (v :: pushed)) := by
  have hretain : Heap.retain v heap = .ok () heap := by
    cases v with
    | error | boolean | integer | float | type | opcode => rfl
    | ref k h => cases hv
  have hresolve : (m.running heap pushed).resolve i = .ok (.push v) := by
    rw [resolve, hi]
    rfl
  rw [step_of_resolve hresolve]
  exact share_running hretain

theorem step_loadString {id : UInt32} {text : String} (htext : m.literals.text? id = some text)
    (hintern : Heap.internString text heap = .ok h heap₁)
    (hretain : Heap.retain (.ref .string h) heap₁ = .ok () heap₂) :
    step evaluate (.loadString id) (m.running heap pushed) = .ok () (m.running heap₂ (.ref .string h :: pushed)) := by
  have hliteral : (m.running heap pushed).literals.text? id = some text := htext
  have hresolve : (m.running heap pushed).resolve (.loadString id) = .ok (.intern text) := by
    change resolveOperation _ .loadString (.pushLiteral id) = _
    rw [resolveOperation, hliteral]
    rfl
  rw [step_of_resolve hresolve]
  exact shareNew_running hintern hretain

theorem step_loadString_unknown {id : UInt32} (htext : m.literals.text? id = none) :
    step evaluate (.loadString id) (m.running heap pushed) =
      .error (.fault (.unknownLiteral id)) (m.running heap pushed) := by
  have hliteral : (m.running heap pushed).literals.text? id = none := htext
  have hresolve : (m.running heap pushed).resolve (.loadString id) = .error (.fault (.unknownLiteral id)) := by
    change resolveOperation _ .loadString (.pushLiteral id) = _
    rw [resolveOperation, hliteral]
    rfl
  exact step_of_halt hresolve

theorem step_newTuple {a b : Value} (hnew : Heap.newTuple [a, b] heap = .ok h heap₁)
    (hretain : Heap.retain (.ref .tuple h) heap₁ = .ok () heap₂) :
    step evaluate (.newTuple 2) (m.running heap (a :: b :: pushed)) =
      .ok () (m.running heap₂ (.ref .tuple h :: pushed)) := by
  have hlength : ¬ (m.running heap (a :: b :: pushed)).frame.length < 2 := by
    rw [frame_running]
    simp
  have hresolve : (m.running heap (a :: b :: pushed)).resolve (.newTuple 2) = .ok (.pack 2) := by
    change (if (m.running heap (a :: b :: pushed)).frame.length < 2 then _ else _ : Check Action) = _
    rw [if_neg hlength]
    rfl
  rw [step_of_resolve hresolve, perform_pack (Nat.le_of_not_lt hlength)]
  change (faulting (Heap.newTuple [a, b]) >>= fun h => share (.ref .tuple h)) (m.running heap pushed) = _
  exact shareNew_running hnew hretain

theorem object_eq_ok {x : k.Content} (hget : heap.get? k h = some x) : Check.object heap k h = .ok x := by
  unfold Check.object Heap.fetch
  rw [hget]

theorem quotation_running {op : Opcode} {t : TypeTag} (hget : heap.get? .tuple h = some [.opcode op, v])
    (hinstruction : Check.instruction op v = .ok j) :
    (m.running heap (.type t :: .ref .tuple h :: pushed)).quotation .newExpression 1 = .ok ⟨t, [j]⟩ := by
  have hreflect : Check.reflect heap .newExpression 0 (.ref .tuple h) = .ok j := by
    have hobject : Check.objectOf heap .newExpression .tuple (.ref .tuple h) = .ok [.opcode op, v] := object_eq_ok hget
    unfold Check.reflect
    rw [hobject]
    exact hinstruction
  have htop : (m.running heap (.type t :: .ref .tuple h :: pushed)).topAndBelow .newExpression 1 =
      .ok (.type t, [.ref .tuple h]) := by
    rw [topAndBelow, frame_running]
    rfl
  have hcode : [(Value.ref .tuple h, 0)].mapM (fun pair => Check.reflect heap .newExpression pair.2 pair.1) =
      .ok [j] := by
    rw [List.mapM_cons, hreflect]
    rfl
  rw [quotation, htop]
  change ([(Value.ref .tuple h, 0)].mapM (fun pair => Check.reflect heap .newExpression pair.2 pair.1) >>= _) = _
  rw [hcode]
  rfl

theorem step_newExpression {op : Opcode} {t : TypeTag} {h' : Handle}
    (hget : heap.get? .tuple h = some [.opcode op, v]) (hinstruction : Check.instruction op v = .ok j)
    (hrelease : Heap.release (.ref .tuple h) heap = .ok () heap₁)
    (hnew : Heap.newExpression ⟨t, [j]⟩ heap₁ = .ok h' heap₂)
    (hretain : Heap.retain (.ref .expression h') heap₂ = .ok () heap₃) :
    step evaluate (.newExpression 1) (m.running heap (.type t :: .ref .tuple h :: pushed)) =
      .ok () (m.running heap₃ (.ref .expression h' :: pushed)) := by
  have hresolve : (m.running heap (.type t :: .ref .tuple h :: pushed)).resolve (.newExpression 1) =
      .ok (.quote ⟨t, [j]⟩) := by
    change ((m.running heap (.type t :: .ref .tuple h :: pushed)).quotation .newExpression 1 >>= fun e =>
      Except.ok (Action.quote e)) = _
    rw [quotation_running hget hinstruction]
    rfl
  have hdiscard : discard 1 (m.running heap (.ref .tuple h :: pushed)) = .ok () (m.running heap₁ pushed) := by
    have hrun : onHeap (Heap.release (.ref .tuple h)) (m.running heap pushed) = .ok () (m.running heap₁ pushed) :=
      onHeap_of_ok hrelease
    rw [discard_of_cons rfl]
    exact bind_apply_of_ok hrun _
  rw [step_of_resolve hresolve]
  change ((discard 1).adaptExcept (fun e => Halt.fault (.heap e)) >>= fun _ =>
    faulting (Heap.newExpression ⟨t, [j]⟩) >>= fun h => share (.ref .expression h))
      (m.running heap (.ref .tuple h :: pushed)) = _
  rw [bind_apply_of_ok (adaptExcept_apply_of_ok hdiscard _)]
  exact shareNew_running hnew hretain

theorem step_evaluateExpression {e : Expression} (hdepth : m.depth < m.limits.maxDepth)
    (hget : heap.get? .expression h = some e) (hrelease : Heap.release (.ref .expression h) heap = .ok () heap₁) :
    step evaluate .evaluateExpression (m.running heap (.ref .expression h :: pushed)) =
      match evaluate e { m.running heap₁ pushed with depth := m.depth + 1 } with
      | .ok w m₂ =>
        if w.isError then .error (.diagnostic .nestedEvaluation) { m₂ with depth := m₂.depth - 1 }
        else .ok () { m₂ with stack := w :: m₂.stack, depth := m₂.depth - 1 }
      | .error f m₂ => .error (.fault f) { m₂ with depth := m₂.depth - 1 } := by
  have hresolve : (m.running heap (.ref .expression h :: pushed)).resolve .evaluateExpression =
      .ok (.evaluate (.ref .expression h) e) := by
    rw [resolve_evaluateExpression frame_running]
    change (if m.limits.maxDepth ≤ m.depth then _ else Check.object heap .expression h) >>= _ = _
    rw [if_neg (Nat.not_le_of_lt hdepth), object_eq_ok hget]
    rfl
  rw [step_of_resolve hresolve]
  exact perform_evaluate hrelease evaluate e

/-! ## Whole expressions -/

theorem runCode_cons_of_ok {m' : Machine} (hstep : step evaluate i m = .ok () m') (rest : List Instruction) :
    runCode evaluate (i :: rest) m = runCode evaluate rest m' := by
  rw [runCode, bind_apply_of_ok hstep]

theorem runCode_singleton (evaluate : Expression → MachineM Fault Value) (i : Instruction) :
    runCode evaluate [i] = step evaluate i := by
  rw [runCode]
  exact bind_pure_unit

theorem evaluateWithin_of_ok {room : Nat} {e : Expression} (hcode : e.code.isEmpty = false)
    (hrun : runCode (innerWithin room) e.code (m.running m.heap []) = .ok () (m.running heap₁ [v])) :
    evaluateWithin room e m = .ok v { m with heap := heap₁ } := by
  have htake : takeResult m.stack.length (m.running heap₁ [v]) =
      .ok v { m.running heap₁ [v] with stack := m.stack } := by
    rw [takeResult_of_cons rfl (Nat.le_refl _), if_pos rfl]
    rfl
  rw [evaluateWithin_eq, enter_of_code hcode]
  change afterwards _ (leave m.stack.length (runCode (innerWithin room) e.code (m.running m.heap []))) = _
  rw [hrun, leave, htake]
  rfl

theorem evaluateWithin_of_fault {room : Nat} {e : Expression} {f : Fault} {m' : Machine}
    (hcode : e.code.isEmpty = false)
    (hrun : runCode (innerWithin room) e.code (m.running m.heap []) = .error (.fault f) m') :
    evaluateWithin room e m = .error f { m' with base := m.base } := by
  rw [evaluateWithin_eq, enter_of_code hcode]
  change afterwards _ (leave m.stack.length (runCode (innerWithin room) e.code (m.running m.heap []))) = _
  rw [hrun]
  rfl

theorem evaluateWithin_inline (hi : i.operation? = some (.push v)) (hv : v.handle? = none) (room : Nat) (tag : TypeTag)
    (m : Machine) : evaluateWithin room ⟨tag, [i]⟩ m = .ok v m := by
  refine evaluateWithin_of_ok rfl ?_
  rw [runCode_singleton]
  exact step_push hi hv

theorem evaluateWithin_literal {id : UInt32} {text : String} (htext : m.literals.text? id = some text)
    (hw : m.heap.WellFormed) (hroom : m.heap.HasRoom) :
    ∃ h heap₁, m.heap.Interns text h heap₁ ∧
      (∀ evaluate, step evaluate (.loadString id) (m.running m.heap []) = .ok () (m.running heap₁ [.ref .string h])) ∧
      ∀ room tag, evaluateWithin room ⟨tag, [.loadString id]⟩ m = .ok (.ref .string h) { m with heap := heap₁ } := by
  obtain ⟨h, heap₁, heap₂, hintern, hretain, hinterns⟩ := Heap.intern_of_room hw hroom text
  refine ⟨h, heap₂, hinterns, fun evaluate => step_loadString htext hintern hretain, fun room tag => ?_⟩
  refine evaluateWithin_of_ok rfl ?_
  rw [runCode_singleton]
  exact step_loadString htext hintern hretain

theorem evaluateWithin_unknown {id : UInt32} (htext : m.literals.text? id = none) (room : Nat) (tag : TypeTag) :
    ∃ m', evaluateWithin room ⟨tag, [.loadString id]⟩ m = .error (.unknownLiteral id) m' := by
  have hrun : runCode (innerWithin room) [.loadString id] (m.running m.heap []) =
      .error (.fault (.unknownLiteral id)) (m.running m.heap []) := by
    rw [runCode_singleton]
    exact step_loadString_unknown htext
  exact ⟨_, evaluateWithin_of_fault rfl hrun⟩

/-! ## The program that makes an expression of a constant -/

/-- The machine in which the expression made of a constant is evaluated. -/
abbrev inside (m : Machine) (heap : Heap) : Machine :=
  { m.running heap [] with depth := m.depth + 1 }

/-- Once the constant is loaded, its pair and the expression come and go, and the heap is as it was when the expression
is evaluated. -/
theorem runCode_reflected {t : TypeTag} (hstep : step evaluate i (m.running m.heap []) = .ok () (m.running heap [v]))
    (hinstruction : Check.instruction i.opcode v = .ok j) (hw : heap.WellFormed) (howes : heap.Owes [v] m.heap)
    (htuple : ∃ h, heap.get? .tuple h = none) (hexpression : ∃ h, m.heap.get? .expression h = none)
    (hdepth : m.depth < m.limits.maxDepth) :
    ∃ heap', m.heap.Alike heap' ∧ heap'.WellFormed ∧
      (∀ w heap'', evaluate ⟨t, [j]⟩ (m.inside heap') = .ok w { m.inside heap' with heap := heap'' } → w ≠ .error →
        runCode evaluate (i.reflected t) (m.running m.heap []) = .ok () (m.running heap'' [w])) ∧
      ∀ f m', evaluate ⟨t, [j]⟩ (m.inside heap') = .error f m' →
        ∃ m'', runCode evaluate (i.reflected t) (m.running m.heap []) = .error (.fault f) m'' := by
  obtain ⟨h, heap₁, heap₂, htupled, hretain, hw₂, hpair, howes₂⟩ :=
    Heap.Owes.keep (k := .tuple) (x := [.opcode i.opcode, v]) (howes.append rfl) hw htuple
  obtain ⟨heap₃, hrelease, halike₃, hw₃⟩ := howes₂.release hw₂
  have hroom : ∃ h, heap₃.get? .expression h = none := by
    obtain ⟨h', hnone⟩ := hexpression
    exact ⟨h', (halike₃.objects .expression h').trans hnone⟩
  obtain ⟨h', heap₄, heap₅, hquoted, hretain', hw₅, hget, howes₅⟩ :=
    Heap.Owes.keep (k := .expression) (x := ⟨t, [j]⟩) (Heap.owes_nil halike₃) hw₃ hroom
  obtain ⟨heap₆, hrelease', halike₆, hw₆⟩ := howes₅.release hw₅
  have hopcode : step evaluate (.loadOpcode i.opcode) (m.running heap [v]) =
      .ok () (m.running heap [.opcode i.opcode, v]) := step_push rfl rfl
  have htype : step evaluate (.loadTag t) (m.running heap₂ [.ref .tuple h]) =
      .ok () (m.running heap₂ [.type t, .ref .tuple h]) := step_push rfl rfl
  have hrun : runCode evaluate (i.reflected t) (m.running m.heap []) =
      step evaluate .evaluateExpression (m.running heap₅ [.ref .expression h']) := by
    rw [Instruction.reflected, runCode_cons_of_ok hstep, runCode_cons_of_ok hopcode,
      runCode_cons_of_ok (step_newTuple htupled hretain), runCode_cons_of_ok htype,
      runCode_cons_of_ok (step_newExpression hpair hinstruction hrelease hquoted hretain'), runCode_singleton]
  rw [step_evaluateExpression hdepth hget hrelease'] at hrun
  refine ⟨heap₆, halike₆, hw₆, fun w heap'' hevaluate hne => ?_, fun f m' hevaluate => ?_⟩
  · rw [hrun, hevaluate]
    cases w with
    | error => exact absurd rfl hne
    | boolean | integer | float | type | opcode | ref => rfl
  · rw [hrun, hevaluate]
    exact ⟨_, rfl⟩

theorem evaluateWithin_reflected_inline (hopcode : i.opcode ∈ Opcode.inlineConstants) (hfits : i.fits = true)
    (hw : m.heap.WellFormed) (hroom : m.heap.HasRoom) (hdepth : m.depth < m.limits.maxDepth) (room : Nat)
    (tag t : TypeTag) : ∃ m', evaluateWithin (room + 1) ⟨tag, i.reflected t⟩ m = .ok i.operand m' := by
  have hi := Instruction.operation?_of_inlineConstants hopcode hfits
  have hv := Instruction.handle?_of_inlineConstants hopcode hfits
  have howes : m.heap.Owes [i.operand] m.heap := (Heap.owes_nil (.refl m.heap)).append hv
  have hinstruction := Instruction.instruction_eq_self (Instruction.width_of_inlineConstants hopcode) hfits
  have hstep : step (innerWithin (room + 1)) i (m.running m.heap []) = .ok () (m.running m.heap [i.operand]) :=
    step_push hi hv
  obtain ⟨heap', -, -, hok, -⟩ := runCode_reflected (t := t) hstep hinstruction hw howes (hroom.slot .tuple)
    (hroom.slot .expression) hdepth
  exact ⟨_, evaluateWithin_of_ok rfl (hok _ heap' (evaluateWithin_inline hi hv room t _) (ne_error_of_push hi))⟩

theorem evaluateWithin_reflected_literal {id : UInt32} {text : String} (hb : m.heap.Balanced roots)
    (hroom : m.heap.HasRoom) (hdepth : m.depth < m.limits.maxDepth) (hinterns : m.heap.Interns text h heap)
    (hstep : ∀ evaluate,
      step evaluate (.loadString id) (m.running m.heap []) = .ok () (m.running heap [.ref .string h]))
    (room : Nat) (tag t : TypeTag) :
    (m.literals.text? h.raw = none →
      ∃ m', evaluateWithin (room + 1) ⟨tag, (Instruction.loadString id).reflected t⟩ m =
        .error (.unknownLiteral h.raw) m') ∧
    ∀ text', m.literals.text? h.raw = some text' →
      ∃ h' m', evaluateWithin (room + 1) ⟨tag, (Instruction.loadString id).reflected t⟩ m = .ok (.ref .string h') m' ∧
        m'.heap.get? .string h' = some (m.heap.sharedText text') := by
  have howes : heap.Owes [.ref .string h] m.heap :=
    Heap.owes_intern hb.wellFormed (fun v hv => (hb.live_iff v hv).mp) hinterns
  have hinstruction : Check.instruction .loadString (.ref .string h) = .ok (.loadString h.raw) := rfl
  have htuple : ∃ h', heap.get? .tuple h' = none := by
    obtain ⟨h', hnone⟩ := hroom.slot .tuple
    exact ⟨h', (hinterns.update.get?_of_ne (by simp)).trans hnone⟩
  obtain ⟨heap', halike, hw', hok, hfault⟩ := runCode_reflected (t := t) (hstep (innerWithin (room + 1))) hinstruction
    hinterns.wellFormed howes htuple (hroom.slot .expression) hdepth
  refine ⟨fun hnone => ?_, fun text' htext' => ?_⟩
  · obtain ⟨m₁, hinside⟩ := evaluateWithin_unknown (m := m.inside heap') hnone room t
    obtain ⟨m₂, hrun⟩ := hfault _ m₁ hinside
    exact ⟨_, evaluateWithin_of_fault rfl hrun⟩
  · obtain ⟨h', heap'', hinterns', -, hinside⟩ :=
      evaluateWithin_literal (m := m.inside heap') htext' hw' (halike.hasRoom hroom)
    have hrun := hok _ heap'' (hinside room t) (by simp)
    refine ⟨h', _, evaluateWithin_of_ok rfl hrun, ?_⟩
    rw [← halike.sharedText_eq]
    exact hinterns'.update.get?_self

end Machine

variable {m : Machine} {host : Multiset Value}

/-- **Constants made at run time.** In a machine whose counts are exact and whose heap has room, an expression made of a
number, a truth value, a type or an opcode and of the opcode that loads it yields that constant. One made of a text and
of `loadString` loads the literal whose number is the slot of the text: it fails if there is none, and yields the text
of that literal otherwise. -/
theorem reflected_constants (hb : m.Balanced host) (hroom : m.heap.HasRoom) (hdepth : m.depth < m.limits.maxDepth)
    (tag t : TypeTag) :
    (∀ i : Instruction, i.opcode ∈ Opcode.inlineConstants → i.fits = true →
      (∃ m', Machine.evaluate ⟨tag, [i]⟩ m = .ok i.operand m') ∧
        ∃ m', Machine.evaluate ⟨tag, i.reflected t⟩ m = .ok i.operand m') ∧
    ∀ id text, m.literals.text? id = some text →
      ∃ h m₁, Machine.evaluate ⟨tag, [.loadString id]⟩ m = .ok (.ref .string h) m₁ ∧
        m₁.heap.get? .string h = some (m.heap.sharedText text) ∧
        (m.literals.text? h.raw = none →
          ∃ m', Machine.evaluate ⟨tag, (Instruction.loadString id).reflected t⟩ m =
            .error (.unknownLiteral h.raw) m') ∧
        ∀ text', m.literals.text? h.raw = some text' →
          ∃ h' m', Machine.evaluate ⟨tag, (Instruction.loadString id).reflected t⟩ m = .ok (.ref .string h') m' ∧
            m'.heap.get? .string h' = some (m.heap.sharedText text') := by
  have hw : m.heap.WellFormed := hb.wellFormed
  obtain ⟨room, hdeep⟩ : ∃ room, m.limits.maxDepth - m.depth = room + 1 := ⟨_, (Nat.sub_add_cancel (by omega)).symm⟩
  simp only [Machine.evaluate, Machine.evaluateOn, Carrier.machine_eq, hdeep]
  refine ⟨fun i hopcode hfits => ⟨⟨m, ?_⟩, ?_⟩, fun id text htext => ?_⟩
  · exact Machine.evaluateWithin_inline (Instruction.operation?_of_inlineConstants hopcode hfits)
      (Instruction.handle?_of_inlineConstants hopcode hfits) _ _ m
  · exact Machine.evaluateWithin_reflected_inline hopcode hfits hw hroom hdepth room tag t
  · obtain ⟨h, heap₁, hinterns, hstep, halone⟩ := Machine.evaluateWithin_literal htext hw hroom
    exact ⟨h, _, halone _ tag, hinterns.update.get?_self,
      Machine.evaluateWithin_reflected_literal hb hroom hdepth hinterns hstep room tag t⟩

/-- A new machine with two literals makes expressions of a number and of the second text, which alone yields that text.
-/
theorem reflected_constants_two_literals :
    let m : Machine := { literals := ⟨(Registry.empty.push "a").push "b"⟩ }
    m.Balanced 0 ∧ m.heap.HasRoom ∧ m.depth < m.limits.maxDepth ∧
      (∃ m', Machine.evaluate ⟨⟨0⟩, (Instruction.loadInteger 7).reflected ⟨0⟩⟩ m = .ok (.integer 7) m') ∧
      ∃ h m₁, Machine.evaluate ⟨⟨0⟩, [.loadString 1]⟩ m = .ok (.ref .string h) m₁ ∧
        m₁.heap.get? .string h = some "b" := by
  intro m
  have hb : m.Balanced 0 := Machine.balanced_new _ {}
  have hdepth : m.depth < m.limits.maxDepth := by decide
  have htext : m.literals.text? 1 = some "b" := by
    rw [Literals.text?, Registry.get?_push]
    rfl
  obtain ⟨hinline, htexts⟩ := reflected_constants hb Heap.hasRoom_empty hdepth ⟨0⟩ ⟨0⟩
  obtain ⟨h, m₁, halone, hget, -⟩ := htexts 1 "b" htext
  exact ⟨hb, Heap.hasRoom_empty, hdepth, (hinline (.loadInteger 7) (by decide) (by decide)).2, h, m₁, halone, hget⟩

/-- Alone, the second of two literals yields its text. An expression made of that text, which is in the first slot,
yields the text of the first literal. -/
theorem reflected_text_astray :
    let m : Machine := { literals := ⟨(Registry.empty.push "a").push "b"⟩ }
    m.Balanced 0 ∧ m.depth < m.limits.maxDepth ∧ m.literals.text? 1 = some "b" ∧
      ∃ h m₁ h' m', Machine.evaluate ⟨⟨0⟩, [.loadString 1]⟩ m = .ok (.ref .string h) m₁ ∧
        m₁.heap.get? .string h = some "b" ∧
        Machine.evaluate ⟨⟨0⟩, (Instruction.loadString 1).reflected Ty.string.tag⟩ m = .ok (.ref .string h') m' ∧
        m'.heap.get? .string h' = some "a" := by
  intro m
  have halone : outcome (Machine.evaluate ⟨⟨0⟩, [.loadString 1]⟩ m) = .ok (.ref .string ⟨0⟩) := by decide +kernel
  have hreflected : outcome (Machine.evaluate ⟨⟨0⟩, (Instruction.loadString 1).reflected Ty.string.tag⟩ m) =
      .ok (.ref .string ⟨0⟩) := by decide +kernel
  refine ⟨Machine.balanced_new _ {}, by decide, by decide +kernel, ⟨0⟩, _, ⟨0⟩, _, eq_ok_of_outcome halone, ?_,
    eq_ok_of_outcome hreflected, ?_⟩
  · decide +kernel
  · decide +kernel

end RefMachine
