import RefMachine.Proofs.Machine.Draws
import RefMachine.Proofs.Machine.Evaluate

/-!
# A machine over a taller stack

A machine may be put over more values and after more diagnostics (`Machine.atop`). An evaluation does there what it does
without them, since an instruction takes values of the frame only: it ends in the same way, in the machine where it ended
otherwise, put over the same values (`Machine.evaluateWithin_atop`). What it reports differs only in the sizes of the
stack that an imbalance names, which are higher by as much as the stack is (`Diagnostic.raise`).
-/

namespace RefMachine

/-- The diagnostic as reported with a stack that is higher by `n`. -/
def Diagnostic.raise (n : Nat) : Diagnostic → Diagnostic
  | .stackImbalance entry exit => .stackImbalance (entry + n) (exit + n)
  | d => d

theorem Diagnostic.OfInstruction.raise_eq {d : Diagnostic} (hd : d.OfInstruction) (n : Nat) : d.raise n = d := by
  cases d with
  | stackImbalance => exact hd.elim
  | _ => rfl

def Halt.raise (n : Nat) : Halt → Halt
  | .diagnostic d => .diagnostic (d.raise n)
  | halt => halt

theorem Halt.Own.raise_eq {halt : Halt} (hown : halt.Own) (n : Nat) : halt.raise n = halt := by
  cases halt with
  | diagnostic d => exact congrArg Halt.diagnostic (Diagnostic.OfInstruction.raise_eq hown n)
  | reported | fault => rfl

namespace Machine

variable {ε ε' α β : Type} {m : Machine} {floor : List Value} {earlier : List Diagnostic}

/-- The machine with more values below its stack and more diagnostics before its own. -/
def atop (floor : List Value) (earlier : List Diagnostic) (m : Machine) : Machine :=
  { m with
    stack := m.stack ++ floor
    base := m.base + floor.length
    diagnostics := earlier ++ m.diagnostics.map (Diagnostic.raise floor.length) }

theorem frame_atop (floor : List Value) (earlier : List Diagnostic) (m : Machine) :
    (m.atop floor earlier).frame = m.frame := by
  have hlength : (m.stack ++ floor).length - (m.base + floor.length) = m.stack.length - m.base := by
    rw [List.length_append]
    omega
  change (m.stack ++ floor).take ((m.stack ++ floor).length - (m.base + floor.length)) = _
  rw [hlength, List.take_append_of_le_length (Nat.sub_le _ _)]
  rfl

/-- `resolve` depends neither on the values below nor on earlier diagnostics. -/
theorem resolve_atop (floor : List Value) (earlier : List Diagnostic) (m : Machine) (i : Instruction) :
    (m.atop floor earlier).resolve i = m.resolve i := by
  unfold resolve
  cases i.operation? with
  | none => rfl
  | some operation =>
    cases operation <;>
      simp only [resolveOperation, top, typePair, topTwo, quotation, topAndBelow, frame_atop] <;> rfl

/-! ## Operations that do the same -/

/-- How an operation ends over more values, given how it ends without them. The map `g` is for the errors. -/
def lifted (floor : List Value) (earlier : List Diagnostic) (g : ε → ε) :
    EStateM.Result ε Machine α → EStateM.Result ε Machine α
  | .ok a m => .ok a (m.atop floor earlier)
  | .error e m => .error (g e) (m.atop floor earlier)

/-- Over more values, `x` does what `y` does without them. -/
def Lifts (floor : List Value) (earlier : List Diagnostic) (g : ε → ε) (x y : MachineM ε α) (m : Machine) : Prop :=
  x (m.atop floor earlier) = lifted floor earlier g (y m)

namespace Lifts

variable {g : ε → ε} {g' : ε' → ε'}

theorem bind {x y : MachineM ε α} {f f' : α → MachineM ε β} (hx : Lifts floor earlier g x y m)
    (hf : Ends (fun a m' => Lifts floor earlier g (f a) (f' a) m') (fun _ _ => True) (y m)) :
    Lifts floor earlier g (x >>= f) (y >>= f') m := by
  unfold Lifts at hx ⊢
  cases hy : y m with
  | ok a m' =>
    rw [hy] at hx
    rw [bind_apply_of_ok hx, bind_apply_of_ok hy]
    exact hf.of_ok hy
  | error e m' =>
    rw [hy] at hx
    rw [bind_apply_of_error hx, bind_apply_of_error hy]
    rfl

theorem adaptExcept {x y : MachineM ε α} (hx : Lifts floor earlier g x y m) {f : ε → ε'}
    (hf : ∀ e, f (g e) = g' (f e)) : Lifts floor earlier g' (x.adaptExcept f) (y.adaptExcept f) m := by
  unfold Lifts at hx ⊢
  unfold EStateM.adaptExcept
  rw [hx]
  cases y m with
  | ok a m' => rfl
  | error e m' =>
    change EStateM.Result.error (f (g e)) _ = .error (g' (f e)) _
    rw [hf]

end Lifts

variable {g : ε → ε} {evaluate : Expression → MachineM Fault Value}

theorem lifts_onHeap (f : HeapM α) : Lifts floor earlier id (onHeap f) (onHeap f) m := by
  have hheap : (m.atop floor earlier).heap = m.heap := rfl
  unfold Lifts
  rw [onHeap_eq, onHeap_eq, hheap]
  cases f m.heap <;> rfl

theorem Lifts.bind_onHeap {f : HeapM α} {h : HeapError → ε} {next next' : α → MachineM ε β} (hh : ∀ e, h e = g (h e))
    (hnext : ∀ a heap', Lifts floor earlier g (next a) (next' a) { m with heap := heap' }) :
    Lifts floor earlier g ((onHeap f).adaptExcept h >>= next) ((onHeap f).adaptExcept h >>= next') m := by
  refine ((lifts_onHeap f).adaptExcept hh).bind (Ends.adaptExcept (onHeap_ends ?_))
  exact .of_forall hnext (fun _ _ => trivial) _

theorem lifts_faulting (f : HeapM α) :
    Lifts floor earlier (Halt.raise floor.length) (faulting f) (faulting f) m :=
  (lifts_onHeap f).adaptExcept fun _ => rfl

theorem lifts_push (v : Value) : Lifts floor earlier g (push v) (push v) m :=
  rfl

theorem lifts_share (v : Value) : Lifts floor earlier (Halt.raise floor.length) (share v) (share v) m :=
  .bind_onHeap (fun _ => rfl) fun _ _ => lifts_push v

theorem dropped_atop {n : Nat} (hn : n ≤ m.stack.length) :
    (m.atop floor earlier).dropped n = (m.dropped n).atop floor earlier := by
  change { m.atop floor earlier with stack := (m.stack ++ floor).drop n } = _
  rw [List.drop_append_of_le_length hn]
  rfl

theorem Lifts.bind_drop {n : Nat} {next next' : Unit → MachineM ε β} (hn : n ≤ m.stack.length)
    (hnext : Lifts floor earlier g (next ()) (next' ()) (m.dropped n)) :
    Lifts floor earlier g (drop n >>= next) (drop n >>= next') m := by
  change next () ((m.atop floor earlier).dropped n) = lifted floor earlier g (next' () (m.dropped n))
  rw [dropped_atop hn]
  exact hnext

theorem lifts_discard {n : Nat} (hn : n ≤ m.stack.length) : Lifts floor earlier id (discard n) (discard n) m := by
  induction n generalizing m with
  | zero => rfl
  | succ n ih =>
    obtain ⟨v, rest, hstack⟩ := List.exists_cons_of_length_pos (Nat.lt_of_lt_of_le n.succ_pos hn)
    have hstack' : (m.atop floor earlier).stack = v :: (rest ++ floor) := by
      change m.stack ++ floor = _
      rw [hstack, List.cons_append]
    unfold Lifts
    rw [discard_of_cons hstack, discard_of_cons hstack', dropped_atop (Nat.le_trans (Nat.succ_pos n) hn)]
    have hrest : n ≤ (m.dropped 1).stack.length := by
      change n ≤ (m.stack.drop 1).length
      rw [List.length_drop]
      omega
    refine Lifts.bind (lifts_onHeap _) (onHeap_ends (.of_forall (fun _ heap' => ?_) (fun _ _ => trivial) _))
    exact ih hrest

theorem lifts_report (d : Diagnostic) :
    Lifts floor earlier g (report (d.raise floor.length)) (report d) m := by
  change EStateM.Result.ok () { m.atop floor earlier with
    diagnostics := earlier ++ m.diagnostics.map (Diagnostic.raise floor.length) ++ [d.raise floor.length] } = _
  rw [List.append_assoc, ← List.map_singleton, ← List.map_append]
  rfl

theorem lifts_bindVariable (index : Nat) (v : Value) (mutability : Mutability) :
    Lifts floor earlier id (bindVariable index v mutability) (bindVariable index v mutability) m := by
  have hscope : (m.atop floor earlier).scope = m.scope := rfl
  unfold Lifts bindVariable
  rw [get_bind_apply, get_bind_apply, hscope]
  rcases m.scope.lookup index with e | _ | old
  · rfl
  · exact Lifts.bind_onHeap (fun _ => rfl) fun _ _ => rfl
  · dsimp only
    split_ifs
    · exact Lifts.bind_onHeap (fun _ => rfl) fun _ _ => Lifts.bind_onHeap (fun _ => rfl) fun _ _ => rfl
    · exact (lifts_report .immutableRebind).bind rfl

theorem lifts_nest (hev : ∀ e m, Lifts floor earlier id (evaluate e) (evaluate e) m) (e : Expression) :
    Lifts floor earlier id (nest evaluate e) (nest evaluate e) m := by
  change afterwards _ (evaluate e ({ m with depth := m.depth + 1 }.atop floor earlier)) = _
  rw [hev e { m with depth := m.depth + 1 }, nest]
  cases evaluate e { m with depth := m.depth + 1 } <;> rfl

theorem lifts_perform (hev : ∀ e m, Lifts floor earlier id (evaluate e) (evaluate e) m) {action : Action}
    (harity : action.arity ≤ m.frame.length) :
    Lifts floor earlier (Halt.raise floor.length) (perform evaluate action) (perform evaluate action) m := by
  have hle : action.arity ≤ m.stack.length := Nat.le_trans harity (List.length_take_le' _ _)
  cases action with
  | skip => rfl
  | push v => exact lifts_share v
  | intern text => exact .bind_onHeap (fun _ => rfl) fun h _ => lifts_share (.ref .string h)
  | replace old new =>
    refine .bind_onHeap (fun _ => rfl) fun _ heap' => .bind_drop hle ?_
    refine (lifts_push new).bind ?_
    exact lifts_faulting (Heap.release old)
  | compare result => exact .bind_drop hle (lifts_push (.boolean result))
  | pack arity =>
    have hmine : arity ≤ m.frame.length := harity
    have hover : arity ≤ (m.atop floor earlier).frame.length := by
      rw [frame_atop]
      exact harity
    have htake : (m.atop floor earlier).stack.take arity = m.stack.take arity := List.take_append_of_le_length hle
    have hdropped : (m.atop floor earlier).dropped arity = (m.dropped arity).atop floor earlier := dropped_atop hle
    show perform evaluate (.pack arity) (m.atop floor earlier) = _
    rw [perform_pack hover, perform_pack hmine, htake, hdropped]
    exact Lifts.bind_onHeap (fun _ => rfl) fun h _ => lifts_share (.ref .tuple h)
  | quote e =>
    have hcode : e.code.length + 1 ≤ m.stack.length := hle
    have hrest : e.code.length ≤ (m.dropped 1).stack.length := by
      change e.code.length ≤ (m.stack.drop 1).length
      rw [List.length_drop]
      omega
    refine .bind_drop (by omega) ?_
    refine Lifts.bind ?_ (.of_forall (fun _ m' => ?_) (fun _ _ => trivial) _)
    · exact (lifts_discard hrest).adaptExcept fun _ => rfl
    · exact .bind_onHeap (fun _ => rfl) fun h _ => lifts_share (.ref .expression h)
  | evaluate handle e =>
    refine .bind_drop hle (.bind_onHeap (fun _ => rfl) fun _ heap' => ?_)
    refine Lifts.bind ?_ (.of_forall (fun v m' => ?_) (fun _ _ => trivial) _)
    · exact (lifts_nest hev e).adaptExcept fun _ => rfl
    · split_ifs
      · rfl
      · exact lifts_push v
  | cons head tail => exact .bind_drop hle (.bind_onHeap (fun _ => rfl) fun h _ => lifts_share (.ref .list h))
  | assign v index mutability =>
    refine .bind_drop hle ?_
    refine Lifts.bind ?_ (.of_forall (fun bound m' => ?_) (fun _ _ => trivial) _)
    · exact (lifts_bindVariable index v mutability).adaptExcept fun _ => rfl
    · split_ifs
      · exact .bind_onHeap (fun _ => rfl) fun _ _ => rfl
      · exact lifts_push bound

theorem lifts_step (hev : ∀ e m, Lifts floor earlier id (evaluate e) (evaluate e) m) (i : Instruction) :
    Lifts floor earlier (Halt.raise floor.length) (step evaluate i) (step evaluate i) m := by
  have hdraws := m.resolve_draws i
  unfold Lifts
  cases hresolve : m.resolve i with
  | ok action =>
    rw [hresolve] at hdraws
    rw [step_of_resolve hresolve, step_of_resolve ((m.resolve_atop floor earlier i).trans hresolve)]
    exact lifts_perform hev hdraws.arity_le
  | error halt =>
    rw [hresolve] at hdraws
    rw [step_of_halt hresolve, step_of_halt ((m.resolve_atop floor earlier i).trans hresolve)]
    change EStateM.Result.error halt _ = .error (halt.raise floor.length) _
    rw [Halt.Own.raise_eq hdraws]

theorem lifts_runCode (hev : ∀ e m, Lifts floor earlier id (evaluate e) (evaluate e) m) (code : List Instruction) :
    Lifts floor earlier (Halt.raise floor.length) (runCode evaluate code) (runCode evaluate code) m := by
  induction code generalizing m with
  | nil => rfl
  | cons i rest ih => exact (lifts_step hev i).bind (.of_forall (fun _ _ => ih) (fun _ _ => trivial) _)

/-! ## Leaving an expression -/

theorem lifts_abandon (entry : Nat) :
    Lifts floor earlier id (abandon (entry + floor.length)) (abandon entry) m := by
  have hsize : (m.atop floor earlier).stack.length - (entry + floor.length) = m.stack.length - entry := by
    change (m.stack ++ floor).length - _ = _
    rw [List.length_append]
    omega
  have hunwind : Lifts floor earlier id (unwindTo (entry + floor.length)) (unwindTo entry) m := by
    change (discard ((m.atop floor earlier).stack.length - (entry + floor.length))).adaptExcept Fault.heap _ = _
    rw [hsize]
    exact (lifts_discard (Nat.sub_le _ _)).adaptExcept fun _ => rfl
  exact hunwind.bind (.of_forall (fun _ _ => rfl) (fun _ _ => trivial) _)

theorem lifts_takeResult (entry : Nat) :
    Lifts floor earlier id (takeResult (entry + floor.length)) (takeResult entry) m := by
  by_cases hsize : m.stack.length ≤ entry
  · have hover : (m.stack ++ floor).length ≤ entry + floor.length := by
      rw [List.length_append]
      omega
    change (if (m.stack ++ floor).length ≤ entry + floor.length then _ else _ : MachineM Fault Value) _ =
      lifted floor earlier id ((if m.stack.length ≤ entry then _ else _ : MachineM Fault Value) m)
    rw [if_pos hsize, if_pos hover]
    exact Lifts.bind (lifts_report .emptyStackOnExit) rfl
  · cases hstack : m.stack with
    | nil =>
      rw [hstack] at hsize
      exact absurd (Nat.zero_le entry) hsize
    | cons v rest =>
      have hover : (m.atop floor earlier).stack = v :: (rest ++ floor) := by
        change m.stack ++ floor = _
        rw [hstack, List.cons_append]
      have hentry : entry ≤ rest.length := by
        rw [hstack, List.length_cons] at hsize
        omega
      have hlength : (rest ++ floor).length = rest.length + floor.length := List.length_append
      show takeResult (entry + floor.length) (m.atop floor earlier) = _
      rw [takeResult_of_cons hover (by omega), takeResult_of_cons hstack hentry, hlength]
      show Lifts floor earlier id _ _ { m with stack := rest }
      by_cases hend : rest.length = entry
      · rw [if_pos hend, if_pos (by omega)]
        rfl
      · rw [if_neg hend, if_neg (by omega)]
        refine Lifts.bind (lifts_report (.stackImbalance entry rest.length)) ?_
        exact Lifts.bind_onHeap (fun _ => rfl) fun _ _ => lifts_abandon entry

theorem leave_atop (entry : Nat) (r : EStateM.Result Halt Machine Unit) :
    leave (entry + floor.length) (lifted floor earlier (Halt.raise floor.length) r) =
      lifted floor earlier id (leave entry r) := by
  cases r with
  | ok _ m => exact lifts_takeResult entry
  | error halt m =>
    cases halt with
    | diagnostic d =>
      exact Lifts.bind (lifts_report d) (lifts_abandon entry)
    | reported => exact lifts_abandon entry
    | fault f => rfl

theorem lifts_enter (hev : ∀ e m, Lifts floor earlier id (evaluate e) (evaluate e) m) (e : Expression) (m : Machine) :
    Lifts floor earlier id (enter evaluate e) (enter evaluate e) m := by
  have hlength : (m.atop floor earlier).stack.length = m.stack.length + floor.length := List.length_append
  have hopened : { m.atop floor earlier with base := (m.atop floor earlier).stack.length } =
      { m with base := m.stack.length }.atop floor earlier := by
    rw [hlength]
    rfl
  have hcode := @lifts_runCode { m with base := m.stack.length } floor earlier evaluate hev e.code
  unfold Lifts at hcode ⊢
  cases hempty : e.code.isEmpty with
  | true =>
    rw [enter_of_isEmpty hempty, enter_of_isEmpty hempty]
    rfl
  | false =>
    rw [enter_of_code hempty, enter_of_code hempty, hopened, hcode, hlength, leave_atop]
    cases leave m.stack.length (runCode evaluate e.code { m with base := m.stack.length }) <;> rfl

/-- An evaluation over more values, and after earlier diagnostics, has the lifted result of the one without them. -/
theorem evaluateWithin_atop (room : Nat) (e : Expression) (m : Machine) :
    evaluateWithin room e (m.atop floor earlier) = lifted floor earlier id (evaluateWithin room e m) := by
  induction room generalizing e m with
  | zero => exact @lifts_enter floor earlier (fun _ => pure .error) (fun _ _ => rfl) e m
  | succ room ih => exact lifts_enter ih e m

end Machine

end RefMachine
