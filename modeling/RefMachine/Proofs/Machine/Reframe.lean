import RefMachine.Proofs.Machine.Calls

/-!
# Another frame and depth

A machine may be given another frame and depth (`Machine.reframe`). Only the checks of an instruction look at either: if
the frame starts lower and the depth is less, an instruction that passed its checks passes them still, with the same
action (`resolve_reframe`). The change itself is the same in every frame, at every depth and under all limits
(`perform_adjust`), apart from what a nested expression does with the levels that are left.
-/

namespace RefMachine

/-- What passes the check `x` passes the check `y`, with the same answer. -/
def Check.Allows {α : Type} (x y : Check α) : Prop :=
  ∀ a, x = .ok a → y = .ok a

namespace Check.Allows

variable {α β : Type}

theorem refl (x : Check α) : Check.Allows x x :=
  fun _ => id

theorem bind {x y : Check α} {f g : α → Check β} (hx : Check.Allows x y) (hf : ∀ a, Check.Allows (f a) (g a)) :
    Check.Allows (x >>= f) (y >>= g) := by
  intro b hb
  cases x with
  | error halt => cases hb
  | ok a =>
    rw [hx a rfl]
    exact hf a b hb

end Check.Allows

namespace Machine

variable {ε ε' α β : Type} {m : Machine} {base depth : Nat}

/-- The machine with the frame and the depth given. -/
def reframe (base depth : Nat) (m : Machine) : Machine :=
  { m with base := base, depth := depth }

/-! ## The checks of an instruction -/

theorem frame_reframe (depth : Nat) (hbase : base ≤ m.base) :
    ∃ lower, (m.reframe base depth).frame = m.frame ++ lower := by
  have hmore : m.stack.length - m.base ≤ m.stack.length - base := Nat.sub_le_sub_left hbase _
  obtain ⟨lower, hlower⟩ := @List.take_prefix_take_left _ m.stack _ _ hmore
  exact ⟨lower, hlower.symm⟩

section Checks

variable (depth) (hbase : base ≤ m.base)

include hbase

theorem top_reframe (op : Opcode) : Check.Allows (m.top op) ((m.reframe base depth).top op) := by
  obtain ⟨lower, hframe⟩ := frame_reframe depth hbase
  intro v hv
  unfold top at hv ⊢
  rw [hframe]
  cases hcases : m.frame with
  | nil => simp [hcases, Check.reject] at hv
  | cons w rest => simpa [hcases] using hv

theorem topTwo_reframe (op : Opcode) : Check.Allows (m.topTwo op) ((m.reframe base depth).topTwo op) := by
  obtain ⟨lower, hframe⟩ := frame_reframe depth hbase
  intro p hp
  unfold topTwo at hp ⊢
  rw [hframe]
  rcases hcases : m.frame with _ | ⟨v, _ | ⟨w, rest⟩⟩
  · simp [hcases, Check.reject] at hp
  · simp [hcases, Check.reject] at hp
  · simpa [hcases] using hp

theorem topAndBelow_reframe (op : Opcode) (count : Nat) :
    Check.Allows (m.topAndBelow op count) ((m.reframe base depth).topAndBelow op count) := by
  obtain ⟨lower, hframe⟩ := frame_reframe depth hbase
  intro p hp
  unfold topAndBelow at hp ⊢
  rw [hframe]
  cases hcases : m.frame with
  | nil => simp [hcases, Check.reject] at hp
  | cons v rest =>
    simp only [hcases, List.cons_append] at hp ⊢
    split_ifs at hp with hlength
    · cases hp
    · have hlonger : ¬ (rest ++ lower).length < count := by
        rw [List.length_append]
        omega
      rw [if_neg hlonger, List.take_append_of_le_length (Nat.le_of_not_lt hlength)]
      exact hp

theorem quotation_reframe (op : Opcode) (count : Nat) :
    Check.Allows (m.quotation op count) ((m.reframe base depth).quotation op count) :=
  (topAndBelow_reframe depth hbase op count).bind fun _ => .refl _

theorem typePair_reframe (op : Opcode) : Check.Allows (m.typePair op) ((m.reframe base depth).typePair op) :=
  (topTwo_reframe depth hbase op).bind fun _ => .refl _

omit hbase in
theorem nestedExpression_reframe {depth : Nat} (base : Nat) (hdepth : depth ≤ m.depth) (op : Opcode) (v : Value) :
    Check.Allows (m.nestedExpression op v) ((m.reframe base depth).nestedExpression op v) := by
  refine (Check.Allows.refl _).bind fun h => ?_
  intro e he
  change (if m.limits.maxDepth ≤ m.depth then _ else Check.object m.heap .expression h) = _ at he
  change (if m.limits.maxDepth ≤ depth then _ else Check.object m.heap .expression h) = _
  split_ifs at he with hlimit
  · cases he
  · rw [if_neg (by omega)]
    exact he

end Checks

/-- An instruction that passes its checks passes them from a lower base and a lower depth. -/
theorem resolve_reframe (hbase : base ≤ m.base) (hdepth : depth ≤ m.depth) (i : Instruction) :
    Check.Allows (m.resolve i) ((m.reframe base depth).resolve i) := by
  have htop := @top_reframe m base depth hbase
  unfold resolve
  cases i.operation? with
  | none => exact .refl _
  | some operation =>
    cases operation with
    | nop | push | read => exact .refl _
    | pushLiteral id => exact .refl _
    | getType | assign => exact (htop i.opcode).bind fun _ => .refl _
    | typeIs | typeEquals => exact (typePair_reframe depth hbase i.opcode).bind fun _ => .refl _
    | tupleArity | tupleItem => exact (htop i.opcode).bind fun _ => .refl _
    | listHead | listTail => exact (htop i.opcode).bind fun _ => .refl _
    | listAdd => exact (topTwo_reframe depth hbase i.opcode).bind fun _ => .refl _
    | newExpression count => exact (quotation_reframe depth hbase i.opcode count).bind fun _ => .refl _
    | evaluateExpression =>
      refine (htop i.opcode).bind fun v => ?_
      exact (nestedExpression_reframe base hdepth i.opcode v).bind fun _ => .refl _
    | newTuple arity =>
      obtain ⟨lower, hframe⟩ := frame_reframe depth hbase
      intro action haction
      simp only [resolveOperation, hframe, List.length_append] at haction ⊢
      split_ifs at haction with hlength
      · cases haction
      · rw [if_neg (by omega)]
        exact haction

/-! ## Operations that look at neither -/

/-- What only the checks of an instruction look at. -/
structure Setting where
  base : Nat
  depth : Nat
  limits : Limits

/-- The machine with a change to its frame, its depth and its limits. -/
def adjust (f : Setting → Setting) (m : Machine) : Machine :=
  let setting := f ⟨m.base, m.depth, m.limits⟩
  { m with base := setting.base, depth := setting.depth, limits := setting.limits }

/-- The operation does the same in every frame, at every depth and under all limits, and changes none of them. -/
def Unframed (x : MachineM ε α) : Prop :=
  ∀ f m, x (m.adjust f) = afterwards (adjust f) (x m)

namespace Unframed

theorem bind {x : MachineM ε α} {next : α → MachineM ε β} (hx : Unframed x) (hnext : ∀ a, Unframed (next a)) :
    Unframed (x >>= next) := by
  intro f m
  have hrun := hx f m
  cases hm : x m with
  | ok a m' =>
    rw [hm] at hrun
    rw [bind_apply_of_ok hm, bind_apply_of_ok hrun]
    exact hnext a f m'
  | error e m' =>
    rw [hm] at hrun
    rw [bind_apply_of_error hm, bind_apply_of_error hrun]
    rfl

theorem adaptExcept {x : MachineM ε α} (hx : Unframed x) (g : ε → ε') : Unframed (x.adaptExcept g) := by
  intro f m
  unfold EStateM.adaptExcept
  rw [hx f m]
  cases x m <;> rfl

theorem get_bind {next : Machine → MachineM ε α} (hnext : ∀ m, Unframed (next m))
    (hread : ∀ f m, next (m.adjust f) = next m) : Unframed (get >>= next) := by
  intro f m
  rw [get_bind_apply, get_bind_apply, hread]
  exact hnext m f m

end Unframed

theorem unframed_pure (a : α) : Unframed (pure a : MachineM ε α) :=
  fun _ _ => rfl

theorem unframed_throw (e : ε) : Unframed (throw e : MachineM ε α) :=
  fun _ _ => rfl

theorem unframed_onHeap (operation : HeapM α) : Unframed (onHeap operation) := by
  intro f m
  have hheap : (m.adjust f).heap = m.heap := rfl
  rw [onHeap_eq, onHeap_eq, hheap]
  cases operation m.heap <;> rfl

theorem unframed_faulting (operation : HeapM α) : Unframed (faulting operation) :=
  (unframed_onHeap operation).adaptExcept _

theorem unframed_push (v : Value) : Unframed (push v : MachineM ε Unit) :=
  fun _ _ => rfl

theorem unframed_drop (n : Nat) : Unframed (drop n : MachineM ε Unit) :=
  fun _ _ => rfl

theorem unframed_report (d : Diagnostic) : Unframed (report d : MachineM ε Unit) :=
  fun _ _ => rfl

theorem unframed_share (v : Value) : Unframed (share v) :=
  (unframed_faulting _).bind fun _ => unframed_push v

theorem unframed_pop? : Unframed (pop? : MachineM ε (Option Value)) := by
  refine .get_bind (fun m => ?_) fun _ _ => rfl
  cases m.stack with
  | nil => exact unframed_pure none
  | cons v rest => exact (unframed_drop 1).bind fun _ => unframed_pure (some v)

theorem unframed_discard (n : Nat) : Unframed (discard n) := by
  induction n with
  | zero => exact unframed_pure ()
  | succ n ih =>
    refine unframed_pop?.bind fun v => ?_
    cases v with
    | none => exact unframed_pure ()
    | some v => exact (unframed_onHeap _).bind fun _ => ih

theorem unframed_bindVariable (index : Nat) (v : Value) (mutability : Mutability) :
    Unframed (bindVariable index v mutability) := by
  have hset : ∀ b, Unframed (setBinding index b : MachineM ScopeError Unit) := fun _ _ _ => rfl
  have hheap : ∀ operation : HeapM Unit, Unframed ((onHeap operation).adaptExcept ScopeError.heap) :=
    fun operation => (unframed_onHeap operation).adaptExcept _
  refine .get_bind (fun m => ?_) fun _ _ => rfl
  rcases m.scope.lookup index with e | _ | old
  · exact unframed_throw e
  · exact (hheap _).bind fun _ => (hset _).bind fun _ => unframed_pure v
  · dsimp only
    split_ifs
    · exact (hheap _).bind fun _ => (hheap _).bind fun _ => (hset _).bind fun _ => unframed_pure v
    · exact (unframed_report _).bind fun _ => unframed_pure Value.error

/-- An action that does not nest does the same in every setting with `arity` values in the frame. -/
theorem perform_adjust {action : Action} {f : Setting → Setting} (haction : ¬ action.Nesting)
    (harity : action.arity ≤ m.frame.length) (harity' : action.arity ≤ (m.adjust f).frame.length)
    (evaluate : Expression → MachineM Fault Value) :
    perform evaluate action (m.adjust f) = afterwards (adjust f) (perform evaluate action m) := by
  have hnew : ∀ (k : Kind) (new : HeapM Handle), Unframed (faulting new >>= fun h => share (.ref k h)) :=
    fun k new => (unframed_faulting new).bind fun h => unframed_share (.ref k h)
  cases action with
  | skip => rfl
  | push v => exact unframed_share v f m
  | intern text => exact hnew .string _ f m
  | replace old new =>
    refine ((unframed_faulting (Heap.retain new)).bind fun _ => ?_) f m
    exact (unframed_drop 1).bind fun _ => (unframed_push new).bind fun _ => unframed_faulting (Heap.release old)
  | compare result => exact ((unframed_drop 2).bind fun _ => unframed_push (.boolean result)) f m
  | pack arity =>
    have hmine : arity ≤ m.frame.length := harity
    have hother : arity ≤ (m.adjust f).frame.length := harity'
    rw [perform_pack hmine, perform_pack hother]
    exact hnew .tuple _ f (m.dropped arity)
  | quote e =>
    refine ((unframed_drop 1).bind fun _ => ?_) f m
    exact ((unframed_discard e.code.length).adaptExcept _).bind fun _ => hnew .expression _
  | evaluate handle e => exact absurd trivial haction
  | cons head tail => exact ((unframed_drop 2).bind fun _ => hnew .list _) f m
  | assign v index mutability =>
    refine ((unframed_drop 1).bind fun _ => ?_) f m
    refine ((unframed_bindVariable index v mutability).adaptExcept _).bind fun bound => ?_
    split_ifs
    · exact (unframed_faulting (Heap.release v)).bind fun _ => unframed_throw Halt.reported
    · exact unframed_push bound

theorem perform_reframe {action : Action} (haction : ¬ action.Nesting) (harity : action.arity ≤ m.frame.length)
    (hbase : base ≤ m.base) (depth : Nat) (evaluate : Expression → MachineM Fault Value) :
    perform evaluate action (m.reframe base depth) = afterwards (reframe base depth) (perform evaluate action m) := by
  obtain ⟨lower, hframe⟩ := frame_reframe depth hbase
  have hlonger : action.arity ≤ (m.reframe base depth).frame.length := by
    rw [hframe, List.length_append]
    omega
  exact @perform_adjust m action (fun setting => { setting with base := base, depth := depth }) haction harity hlonger
    evaluate

/-! ## Instructions -/

theorem call?_reframe {i : Instruction} {e : Expression} {m₁ : Machine} (hbase : base ≤ m.base)
    (hdepth : depth ≤ m.depth) (hcall : m.call? i = some (e, m₁)) :
    (m.reframe base depth).call? i = some (e, m₁.reframe base (depth + 1)) := by
  obtain ⟨handle, heap₁, hresolve, hrelease, rfl⟩ := call?_eq_some_iff.mp hcall
  exact call?_eq_some_iff.mpr ⟨handle, heap₁, resolve_reframe hbase hdepth i _ hresolve, hrelease, rfl⟩

theorem step_reframe_of_not_call {i : Instruction} {m' : Machine} {evaluate : Expression → MachineM Fault Value}
    (hbase : base ≤ m.base) (hdepth : depth ≤ m.depth) (hcall : m.call? i = none)
    (hstep : step evaluate i m = .ok () m') :
    step evaluate i (m.reframe base depth) = .ok () (m'.reframe base depth) := by
  have hdraws := m.resolve_draws i
  cases hresolve : m.resolve i with
  | error halt =>
    rw [step_of_halt hresolve] at hstep
    cases hstep
  | ok action =>
    rw [hresolve] at hdraws
    rw [step_of_resolve hresolve] at hstep
    have hnesting : ¬ action.Nesting := by
      intro hnesting
      cases action with
      | evaluate handle e =>
        obtain ⟨err, heap₁, hrelease⟩ := release_of_not_call hcall hresolve
        rw [perform_evaluate_of_error hrelease] at hstep
        cases hstep
      | _ => exact hnesting
    rw [step_of_resolve (resolve_reframe hbase hdepth i action hresolve),
      perform_reframe hnesting hdraws.arity_le hbase, hstep]
    rfl

end Machine

end RefMachine
