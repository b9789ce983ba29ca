import RefMachine.Proofs.Machine.Evaluate

/-!
# Evaluation with a record

A history is a run so far: the machine as it is, the stacks with which the evaluations under way were entered, and all
moments up to now. The evaluator runs on a history as it runs on a machine, one move after the other, and the moment
after each move is noted. A move changes the stack at most once. Without the record nothing is different
(`erase_evaluateOn`), so the moments that were noted are those of the evaluation itself.
-/

namespace RefMachine

/-- A machine at one moment of a run. -/
structure Moment where
  machine : Machine
  /-- The stacks with which the evaluations under way were entered, the innermost first. -/
  entries : List (List Value)

/-- A run so far. -/
structure History where
  machine : Machine
  entries : List (List Value) := []
  /-- The moments up to now, the latest first. -/
  moments : List Moment := []

abbrev HistoryM (ε : Type) := EStateM ε History

namespace History

open Machine

variable {ε ε' α β : Type}

/-- A run that begins with the given machine. -/
def start (m : Machine) : History where
  machine := m
  moments := [⟨m, []⟩]

/-- The run goes on to the given machine. -/
def advance (h : History) (m : Machine) : History :=
  { h with machine := m, moments := ⟨m, h.entries⟩ :: h.moments }

/-- Does an operation of the machine and notes the moment after it. -/
def move (x : MachineM ε α) : HistoryM ε α := fun h =>
  match x h.machine with
  | .ok a m => .ok a (h.advance m)
  | .error e m => .error e (h.advance m)

/-- The run in which an expression is entered. -/
abbrev opened (h : History) : History :=
  { h with entries := h.machine.stack :: h.entries }.advance { h.machine with base := h.machine.stack.length }

/-- The run in which an expression that was entered in the run `h` is left. -/
abbrev closed (h h' : History) : History :=
  { h' with entries := h.entries }.advance { h'.machine with base := h.machine.base }

instance : Carrier History where
  machine := machine
  run := move
  update f h := h.advance (f h.machine)
  openFrame := opened
  closeFrame := closed

@[simp] theorem machine_carried (h : History) : Carrier.machine h = h.machine :=
  rfl

/-- The moments of an evaluation, the latest first, from the machine that it starts with to the one that it ends with,
nested evaluations included. -/
def momentsOf (e : Expression) (m : Machine) : List Moment :=
  (endState (evaluateOn e (start m))).moments

/-- The run in which a nested expression is evaluated. -/
abbrev deeper (h : History) : History :=
  h.advance { h.machine with depth := h.machine.depth + 1 }

/-- The run after a nested expression was evaluated. -/
abbrev shallower (h : History) : History :=
  h.advance { h.machine with depth := h.machine.depth - 1 }

variable {h : History} {record : Expression → HistoryM Fault Value}

theorem enter_of_code {e : Expression} (hcode : e.code.isEmpty = false) :
    enter record e h = afterwards h.closed (leave h.machine.stack.length (runCode record e.code h.opened)) := by
  unfold enter
  rw [if_neg (by rw [hcode]; exact Bool.false_ne_true)]
  rfl

/-! ## Without the record -/

/-- What is left of a result without its record. -/
def erase : EStateM.Result ε History α → EStateM.Result ε Machine α
  | .ok a h => .ok a h.machine
  | .error e h => .error e h.machine

theorem endState_erase (r : EStateM.Result ε History α) : endState (erase r) = (endState r).machine := by
  cases r <;> rfl

theorem erase_afterwards {f : History → History} {g : Machine → Machine} (hf : ∀ h, (f h).machine = g h.machine)
    (r : EStateM.Result ε History α) : erase (afterwards f r) = afterwards g (erase r) := by
  cases r with
  | ok a h => exact congrArg (EStateM.Result.ok a) (hf h)
  | error e h => exact congrArg (EStateM.Result.error e) (hf h)

/-- The one operation does with a record what the other does without. -/
def Records (x : HistoryM ε α) (y : MachineM ε α) : Prop :=
  ∀ h, erase (x h) = y h.machine

namespace Records

variable {x : HistoryM ε α} {y : MachineM ε α}

theorem pure (a : α) : Records (Pure.pure a : HistoryM ε α) (Pure.pure a) :=
  fun _ => rfl

theorem throw (e : ε) : Records (MonadExcept.throw e : HistoryM ε α) (MonadExcept.throw e) :=
  fun _ => rfl

theorem run (y : MachineM ε α) : Records (Carrier.run y) y := by
  intro h
  change erase (move y h) = _
  unfold move
  cases y h.machine <;> rfl

theorem get_bind {f : History → HistoryM ε α} {g : Machine → MachineM ε α} (hf : ∀ h, Records (f h) (g h.machine)) :
    Records (get >>= f) (get >>= g) :=
  fun h => hf h h

theorem bind {f : α → HistoryM ε β} {g : α → MachineM ε β} (hx : Records x y) (hf : ∀ a, Records (f a) (g a)) :
    Records (x >>= f) (y >>= g) := by
  intro h
  change erase (EStateM.bind x f h) = EStateM.bind y g h.machine
  unfold EStateM.bind
  rw [← hx h]
  cases x h with
  | ok a h' => exact hf a h'
  | error e h' => rfl

theorem adaptExcept (hx : Records x y) (g : ε → ε') : Records (x.adaptExcept g) (y.adaptExcept g) := by
  intro h
  unfold EStateM.adaptExcept
  rw [← hx h]
  cases x h <;> rfl

theorem ite {p : Prop} [Decidable p] {x' : HistoryM ε α} {y' : MachineM ε α} (hx : Records x y) (hx' : Records x' y') :
    Records (if p then x else x') (if p then y else y') := by
  split_ifs
  · exact hx
  · exact hx'

end Records

theorem share_records (v : Value) : Records (share v) (share v) :=
  (Records.run _).bind fun _ => .run _

theorem discard_records (n : Nat) : Records (discard n) (discard n) := by
  induction n with
  | zero => exact .pure ()
  | succ n ih =>
    refine (Records.run _).bind fun v => ?_
    cases v with
    | none => exact .pure ()
    | some v => exact (Records.run _).bind fun _ => ih

theorem packTuple_records (arity : Nat) : Records (packTuple arity) (packTuple arity) :=
  .get_bind fun _ => .ite (.throw _) ((Records.run _).bind fun _ => .run _)

variable {plain : Expression → MachineM Fault Value}

theorem nest_records (hrecord : ∀ e, Records (record e) (plain e)) (e : Expression) :
    Records (nest record e) (nest plain e) := by
  intro h
  have hrun : erase (record e h.deeper) = plain e { h.machine with depth := h.machine.depth + 1 } := hrecord e h.deeper
  change _ = afterwards _ (plain e { h.machine with depth := h.machine.depth + 1 })
  rw [← hrun]
  exact erase_afterwards (fun _ => rfl) _

theorem perform_records (hrecord : ∀ e, Records (record e) (plain e)) (action : Action) :
    Records (perform record action) (perform plain action) := by
  cases action with
  | skip => exact .pure ()
  | push v => exact share_records v
  | intern text => exact (Records.run _).bind fun h => share_records _
  | replace old new =>
    refine (Records.run _).bind fun _ => (Records.run _).bind fun _ => ?_
    exact (Records.run _).bind fun _ => .run _
  | compare result => exact (Records.run _).bind fun _ => .run _
  | pack arity => exact ((packTuple_records arity).adaptExcept _).bind fun h => share_records _
  | quote e =>
    refine (Records.run _).bind fun _ => ((discard_records _).adaptExcept _).bind fun _ => ?_
    exact (Records.run _).bind fun h => share_records _
  | evaluate handle e =>
    refine (Records.run _).bind fun _ => (Records.run _).bind fun _ => ?_
    exact ((nest_records hrecord e).adaptExcept _).bind fun v => .ite (.throw _) (.run _)
  | cons head tail => exact (Records.run _).bind fun _ => (Records.run _).bind fun h => share_records _
  | assign v index mutability =>
    refine (Records.run _).bind fun _ => (Records.run _).bind fun bound => ?_
    exact .ite ((Records.run _).bind fun _ => .throw _) (.run _)

theorem step_records (hrecord : ∀ e, Records (record e) (plain e)) (i : Instruction) :
    Records (step record i) (step plain i) := by
  refine .get_bind fun h => ?_
  rw [machine_carried, Carrier.machine_eq]
  cases h.machine.resolve i with
  | ok action => exact perform_records hrecord action
  | error halt => exact .throw halt

theorem runCode_records (hrecord : ∀ e, Records (record e) (plain e)) (code : List Instruction) :
    Records (runCode record code) (runCode plain code) := by
  induction code with
  | nil => exact .pure ()
  | cons i rest ih => exact (step_records hrecord i).bind fun _ => ih

theorem abandon_records (entry : Nat) : Records (abandon entry) (abandon entry) :=
  (Records.get_bind fun _ => (discard_records _).adaptExcept _).bind fun _ => .pure _

theorem takeResult_records (entry : Nat) : Records (takeResult entry) (takeResult entry) := by
  refine .get_bind fun m => .ite ((Records.run _).bind fun _ => .pure _) ((Records.run _).bind fun v => ?_)
  exact .ite (.pure _) ((Records.run _).bind fun _ => (Records.run _).bind fun _ => abandon_records entry)

theorem erase_leave (entry : Nat) (r : EStateM.Result Halt History Unit) :
    erase (leave entry r) = leave entry (erase r) := by
  cases r with
  | ok a h => exact takeResult_records entry h
  | error halt h =>
    cases halt with
    | diagnostic d => exact ((Records.run _).bind fun _ => abandon_records entry) h
    | reported => exact abandon_records entry h
    | fault f => rfl

theorem enter_records (hrecord : ∀ e, Records (record e) (plain e)) (e : Expression) :
    Records (enter record e) (enter plain e) := by
  intro h
  unfold enter
  split_ifs
  · rfl
  · have hrun := runCode_records hrecord e.code h.opened
    have hleave := erase_leave h.machine.stack.length (runCode record e.code h.opened)
    rw [hrun] at hleave
    exact (erase_afterwards (fun _ => rfl) _).trans (congrArg (afterwards _) hleave)

theorem evaluateWithin_records (room : Nat) (e : Expression) :
    Records (evaluateWithin room e) (evaluateWithin room e) := by
  induction room generalizing e with
  | zero => exact enter_records (fun _ => .pure .error) e
  | succ room ih => exact enter_records ih e

theorem innerWithin_records (room : Nat) (e : Expression) :
    Records (innerWithin room e) (innerWithin room e) := by
  cases room with
  | zero => exact .pure _
  | succ room => exact evaluateWithin_records room e

/-- Without its record, the evaluation of an expression on a history is the one on the machine. -/
theorem erase_evaluateOn (e : Expression) (h : History) : erase (evaluateOn e h) = evaluate e h.machine :=
  evaluateWithin_records _ e h

end History

end RefMachine
