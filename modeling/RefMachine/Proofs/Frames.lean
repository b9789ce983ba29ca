import RefMachine.Proofs.Machine.Calls
import RefMachine.Proofs.Machine.Floor

/-!
# Frames

Whatever the machine and the expression, an evaluation leaves alone what was on the stack when it was entered. It ends
with the same stack, or, after a fault, with that stack below what it left; and at no moment in between does it, or an
expression that it evaluates, take a value from below its own frame (`evaluation_framed`).

As the depth is restored with the frame, evaluation may be described without counting the room that is left for nested
expressions: it enters an expression and evaluates those inside it in the same way (`Machine.evaluate_eq`).
-/

namespace RefMachine

variable {floor : List Value}

namespace History

open Machine Carrier

variable {ε α : Type} {h h' : History} {evaluate : Expression → HistoryM Fault Value}

/-! ## The record is complete

Every machine in which evaluation comes to an instruction, nested expressions included, is the machine of a moment.
-/

theorem comes_noted {room : Nat} {code : List Instruction} {i : Instruction} {m' : Machine} (hr : Ready floor h)
    (hbase : h.machine.base = floor.length) (hcomes : Comes (innerWithin room) code h.machine i m') :
    ∃ h', h'.machine = m' ∧ Keeps floor h h' ∧
      (endState (step (innerWithin room) i h')).moments <:+ (endState (runCode (innerWithin room) code h)).moments := by
  generalize hm : h.machine = m at hcomes
  induction hcomes generalizing h with
  | here i rest m =>
    refine ⟨h, hm, .refl hr, ?_⟩
    have hstep := step_framed (innerWithin_framed room) hr hbase i
    unfold runCode
    cases hrun : step (innerWithin room) i h with
    | ok a h₁ =>
      have hk := (hstep.of_ok hrun).1
      rw [bind_apply_of_ok hrun]
      exact (runCode_framed (innerWithin_framed room) (hk.ready hr) (hk.rests.base_eq.trans hbase) rest).keeps.grows
    | error halt h₁ =>
      change _ <:+ (endState (EStateM.bind (step (innerWithin room) i) _ h)).moments
      unfold EStateM.bind
      rw [hrun]
  | @next i j rest m m₁ m' hstep hrest ih =>
    have herase := step_records (innerWithin_records room) i h
    rw [hm, hstep] at herase
    cases hrun : step (innerWithin room) i h with
    | ok a h₁ =>
      rw [hrun] at herase
      have hk := ((step_framed (innerWithin_framed room) hr hbase i).of_ok hrun).1
      have hm₁ : h₁.machine = m₁ := by
        injection herase
      unfold runCode
      rw [bind_apply_of_ok hrun]
      obtain ⟨h', hm', hk', hmoments⟩ := ih (hk.ready hr) (hk.rests.base_eq.trans hbase) hm₁
      exact ⟨h', hm', hk.trans hk', hmoments⟩
    | error halt h₁ =>
      rw [hrun] at herase
      cases herase

theorem nested_noted {handle : Value} {heap₁ : Heap} (hr : Ready floor h) (hone : floor <:+ h.machine.stack.drop 1)
    (hrelease : Heap.release handle h.machine.heap = .ok () heap₁) (e : Expression) :
    ∃ h', h'.machine = h.machine.descended heap₁ ∧ h'.entries = h.entries ∧ Ready floor h' ∧
      (endState (evaluate e h')).moments <:+ (endState (perform evaluate (.evaluate handle e) h)).moments := by
  have hk₁ : Keeps floor h (h.advance (h.machine.dropped 1)) := .advance hr ⟨hone, rfl, rfl, rfl⟩
  have hk₂ : Keeps floor (h.advance (h.machine.dropped 1))
      ((h.advance (h.machine.dropped 1)).advance { h.machine.dropped 1 with heap := heap₁ }) :=
    .advance (hk₁.ready hr) ⟨hone, rfl, rfl, rfl⟩
  have hheap : Machine.faulting (Heap.release handle) (h.machine.dropped 1) =
      .ok () { h.machine.dropped 1 with heap := heap₁ } := by
    unfold Machine.faulting EStateM.adaptExcept
    rw [Machine.onHeap_eq, hrelease]
  refine ⟨((h.advance (h.machine.dropped 1)).advance { h.machine.dropped 1 with heap := heap₁ }).deeper, rfl, rfl,
    (hk₂.ready (hk₁.ready hr)).deeper, ?_⟩
  change _ <:+ (endState ((run (faulting (Heap.release handle)) >>= _) (h.advance (h.machine.dropped 1)))).moments
  rw [bind_apply_of_ok (run_of_ok hheap)]
  change _ <:+ (endState (EStateM.bind ((nest evaluate e).adaptExcept _) _ _)).moments
  unfold EStateM.bind EStateM.adaptExcept nest
  dsimp only
  cases evaluate e ((h.advance (h.machine.dropped 1)).advance { h.machine.dropped 1 with heap := heap₁ }).deeper with
  | ok v h₃ =>
    have hshallower : h₃.moments <:+ h₃.shallower.moments := List.suffix_cons _ _
    simp only [afterwards]
    split_ifs
    · exact hshallower
    · exact hshallower.trans (List.suffix_cons _ _)
  | error f h₃ => exact List.suffix_cons _ _

theorem runCode_noted {e : Expression} (hev : Frames evaluate) (hr : Ready floor h) (hcode : e.code ≠ []) :
    (endState (runCode evaluate e.code h.opened)).moments <:+ (endState (enter evaluate e h)).moments := by
  have hk := (runCode_framed hev hr.opened rfl e.code).keeps
  have hleave := (leave_framed (hk.ready hr.opened)).keeps.grows
  rw [enter_of_code (by simpa using hcode)]
  cases hrun : leave h.machine.stack.length (runCode evaluate e.code h.opened) <;>
    exact (hrun ▸ hleave).trans (List.suffix_cons _ _)

/-- Of the moments of the history `h'`, that of the machine `m'` has one more entry for each level that the machine is
deeper, and one for the expression that the run `h` is about to enter. -/
def Notes (h : History) (m' : Machine) (h' : History) : Prop :=
  ∃ moment ∈ h'.moments, moment.machine = m' ∧
    moment.entries.length + h.machine.depth = m'.depth + h.entries.length + 1

theorem enters_noted {room : Nat} {e : Expression} {i : Instruction} {m' : Machine}
    {deeper : Expression → Machine → Instruction → Machine → Prop} (hr : Ready floor h)
    (hdeeper : ∀ floor e h i m', Ready floor h → deeper e h.machine i m' → Notes h m' (endState (innerWithin room e h)))
    (henters : Enters (innerWithin room) deeper e h.machine i m') :
    Notes h m' (endState (enter (innerWithin room) e h)) := by
  have hcode : e.code ≠ [] := by
    cases henters with
    | own hcomes => exact List.ne_nil_of_mem hcomes.mem
    | nested hcomes => exact List.ne_nil_of_mem hcomes.mem
  have hrun := runCode_noted (innerWithin_framed room) hr hcode
  cases henters with
  | own hcomes =>
    obtain ⟨h', rfl, hk, hstep⟩ := comes_noted hr.opened rfl hcomes
    have hr' := hk.ready hr.opened
    have hgrows := (step_framed (innerWithin_framed room) hr' hk.rests.base_eq i).keeps.grows
    refine ⟨h'.present, (hgrows.trans (hstep.trans hrun)).subset hr'.noted, rfl, ?_⟩
    change h'.entries.length + _ = _
    rw [hk.entries_eq, hk.rests.depth_eq]
    exact Nat.add_comm _ _
  | @nested j m₁ handle e' heap₁ hcomes hresolve hrelease hvisits =>
    obtain ⟨h', rfl, hk, hstep⟩ := comes_noted hr.opened rfl hcomes
    have hr' := hk.ready hr.opened
    have hdraws := h'.machine.resolve_draws j
    rw [hresolve] at hdraws
    have hone := Machine.suffix_drop hk.rests.base_eq hr'.suffix hdraws.arity_le
    obtain ⟨h₁, hm₁, hentries, hr₁, hnested⟩ := @nested_noted _ _ (innerWithin room) _ _ hr' hone hrelease e'
    rw [← hm₁] at hvisits
    obtain ⟨moment, hmoment, hmachine, hlength⟩ := hdeeper _ e' h₁ i m' hr₁ hvisits
    have hperform : step (innerWithin room) j h' = perform (innerWithin room) (.evaluate handle e') h' := by
      rw [step_apply, machine_carried, hresolve]
    rw [← hperform] at hnested
    refine ⟨moment, (hnested.trans (hstep.trans hrun)).subset hmoment, hmachine, ?_⟩
    have hdepth : h₁.machine.depth = h.machine.depth + 1 := by
      rw [hm₁]
      exact congrArg (· + 1) hk.rests.depth_eq
    have hopened : h₁.entries.length = h.entries.length + 1 := by
      rw [hentries, hk.entries_eq]
      rfl
    omega

/-- Every machine in which an evaluation comes to an instruction is that of a noted moment. -/
theorem visits_noted {room : Nat} {e : Expression} {i : Instruction} {m' : Machine} (hr : Ready floor h)
    (hvisits : Machine.VisitsWithin room e h.machine i m') : Notes h m' (endState (evaluateWithin room e h)) := by
  induction room generalizing floor e h i m' with
  | zero => exact @enters_noted _ _ 0 _ _ _ _ hr (fun _ _ _ _ _ _ hfalse => hfalse.elim) hvisits
  | succ room ih =>
    exact @enters_noted _ _ (room + 1) _ _ _ _ hr (fun _ _ _ _ _ hr' hvisits' => ih hr' hvisits') hvisits

/-! ## Without the record -/

theorem Framed.erase {leaves : List Value → Prop} {r : EStateM.Result ε History α} (hr : Framed floor leaves h r) :
    Ends (fun _ m' => h.machine.Rests floor m' ∧ leaves m'.stack) (fun _ => h.machine.Rests floor) (erase r) := by
  cases r with
  | ok a h' => exact ⟨hr.1.rests, hr.2⟩
  | error e h' => exact hr.rests

theorem ready_start {m : Machine} (hfloor : floor <:+ m.stack) : Ready floor (start m) :=
  ⟨hfloor, fun _ hentry => absurd hentry List.not_mem_nil, List.mem_cons_self⟩

end History

namespace Machine

variable {m m' : Machine}

theorem step_rests (room : Nat) (hbase : m.base = floor.length) (hfloor : floor <:+ m.stack) (i : Instruction) :
    EndsIn (m.Rests floor) (step (innerWithin room) i m) := by
  have hframed := History.step_framed (History.innerWithin_framed room) (History.ready_start hfloor) hbase i
  have hends := hframed.erase
  rw [History.step_records (History.innerWithin_records room) i] at hends
  exact hends.mono (fun _ _ => And.left) fun _ _ => id

theorem evaluate_rests (e : Expression) (m : Machine) :
    Ends (fun _ m' => m.Rests m.stack m' ∧ m'.stack = m.stack) (fun _ => m.Rests m.stack) (evaluate e m) := by
  have hready : History.Ready m.stack (.start m) := History.ready_start (List.suffix_refl _)
  have hends := (History.evaluateWithin_framed (m.limits.maxDepth - m.depth) m.stack e (.start m) hready).erase
  change Ends _ _ (History.erase (Machine.evaluateOn e (History.start m))) at hends
  rw [History.erase_evaluateOn] at hends
  exact hends

theorem agreeBelow_innerWithin (m : Machine) : m.AgreeBelow (innerWithin (m.limits.maxDepth - m.depth)) evaluate := by
  intro e m₁ hlimits hdepth hlt
  have hroom : m.limits.maxDepth - m.depth = m₁.limits.maxDepth - m₁.depth + 1 := by
    rw [hlimits, hdepth]
    omega
  rw [hroom]
  rfl

theorem step_evaluate_rests (hbase : m.base = floor.length) (hfloor : floor <:+ m.stack) (i : Instruction) :
    EndsIn (m.Rests floor) (step evaluate i m) := by
  have hrests := step_rests (m.limits.maxDepth - m.depth) hbase hfloor i
  rwa [step_congr m.agreeBelow_innerWithin] at hrests

theorem runCode_evaluate_rests (hbase : m.base = floor.length) (hfloor : floor <:+ m.stack) (code : List Instruction) :
    EndsIn (m.Rests floor) (runCode evaluate code m) := by
  induction code generalizing m with
  | nil => exact .refl hfloor
  | cons i rest ih =>
    refine (step_evaluate_rests hbase hfloor i).bind fun _ m₁ hm₁ => ?_
    exact (ih (hm₁.base_eq.trans hbase) hm₁.suffix).imp fun _ => hm₁.trans

theorem Rests.agreeBelow {inner inner' : Expression → MachineM Fault Value} (hm : m.Rests floor m')
    (hagree : m.AgreeBelow inner inner') : m'.AgreeBelow inner inner' := by
  unfold AgreeBelow
  rw [hm.limits_eq, hm.depth_eq]
  exact hagree

theorem runCode_congr {inner : Expression → MachineM Fault Value} (hagree : m.AgreeBelow inner evaluate)
    (hbase : m.base = floor.length) (hfloor : floor <:+ m.stack) (code : List Instruction) :
    runCode inner code m = runCode evaluate code m := by
  induction code generalizing m with
  | nil => rfl
  | cons i rest ih =>
    rw [runCode, runCode]
    cases hrun : step evaluate i m with
    | error halt m₁ => rw [bind_apply_of_error hrun, bind_apply_of_error ((step_congr hagree i).trans hrun)]
    | ok a m₁ =>
      have hm₁ := (step_evaluate_rests hbase hfloor i).of_ok hrun
      rw [bind_apply_of_ok hrun, bind_apply_of_ok ((step_congr hagree i).trans hrun)]
      exact ih (hm₁.agreeBelow hagree) (hm₁.base_eq.trans hbase) hm₁.suffix

theorem enter_congr {inner : Expression → MachineM Fault Value} (hagree : m.AgreeBelow inner evaluate)
    (e : Expression) : enter inner e m = enter evaluate e m := by
  cases hcode : e.code.isEmpty with
  | true => rw [enter_of_isEmpty hcode, enter_of_isEmpty hcode]
  | false =>
    have hrun := @runCode_congr m.stack { m with base := m.stack.length } _ hagree rfl (List.suffix_refl _) e.code
    rw [enter_of_code hcode, enter_of_code hcode, hrun]

theorem Comes.rests {code : List Instruction} {i : Instruction} (hcomes : Comes evaluate code m i m')
    (hbase : m.base = floor.length) (hfloor : floor <:+ m.stack) : m.Rests floor m' := by
  induction hcomes with
  | here => exact .refl hfloor
  | @next i j rest m m₁ m' hstep hrest ih =>
    have hm₁ := (step_evaluate_rests hbase hfloor i).of_ok hstep
    exact hm₁.trans (ih (hm₁.base_eq.trans hbase) hm₁.suffix)

/-- `evaluate` enters an expression and evaluates those inside it by `evaluate` itself. -/
theorem evaluate_eq (e : Expression) (m : Machine) : evaluate e m = enter evaluate e m := by
  change evaluateWithin (m.limits.maxDepth - m.depth) e m = _
  rw [evaluateWithin_eq]
  exact enter_congr m.agreeBelow_innerWithin e

end Machine

/-- **Frames.** After an evaluation the stack is the same, or, after a fault, still there below what was left, and
`base` and `depth` are restored. At every moment the stack stands on the one that the evaluation was entered with, and
on those of the nested evaluations under way. The moments are those of `evaluate` itself, and wherever an instruction is
come to there is one, with an entry for each level of nesting. -/
theorem evaluation_framed (m : Machine) (e : Expression) :
    (∀ v m', Machine.evaluate e m = .ok v m' → m'.stack = m.stack ∧ m'.base = m.base ∧ m'.depth = m.depth) ∧
    (∀ f m', Machine.evaluate e m = .error f m' → m.stack <:+ m'.stack ∧ m'.base = m.base ∧ m'.depth = m.depth) ∧
    (∀ moment ∈ History.momentsOf e m,
      m.stack <:+ moment.machine.stack ∧ ∀ entry ∈ moment.entries, entry <:+ moment.machine.stack) ∧
    History.erase (Machine.evaluateOn e (History.start m)) = Machine.evaluate e m ∧
    ∀ i m', Machine.Visits e m i m' → ∃ moment ∈ History.momentsOf e m,
      moment.machine = m' ∧ moment.entries.length + m.depth = m'.depth + 1 := by
  have hready : History.Ready m.stack (.start m) := History.ready_start (List.suffix_refl _)
  have hframed := History.evaluateWithin_framed (m.limits.maxDepth - m.depth) m.stack e (.start m) hready
  have herase := History.erase_evaluateOn e (.start m)
  have hends := hframed.erase
  change Ends _ _ (History.erase (Machine.evaluateOn e (History.start m))) at hends
  rw [herase] at hends
  refine ⟨fun v m' hrun => ?_, fun f m' hrun => ?_, fun moment hmoment => ?_, herase, fun i m' hvisits => ?_⟩
  · obtain ⟨hrests, hstack⟩ := hends.of_ok hrun
    exact ⟨hstack, hrests.base_eq, hrests.depth_eq⟩
  · have hrests := hends.of_error hrun
    exact ⟨hrests.suffix, hrests.base_eq, hrests.depth_eq⟩
  · rcases hframed.keeps.stands moment hmoment with hstart | hstands
    · rw [List.mem_singleton.mp hstart]
      exact ⟨List.suffix_refl _, fun _ hentry => absurd hentry List.not_mem_nil⟩
    · exact ⟨hstands.suffix, hstands.entries⟩
  · exact History.visits_noted hready hvisits

/-- Makes an expression that yields a number, and evaluates it. -/
def quotedSeven : Expression :=
  ⟨Ty.integer.tag, [.loadInteger 7, .loadOpcode .loadInteger, .newTuple 2, .loadType .integer, .newExpression 1,
    .evaluateExpression]⟩

/-- A heap with nothing but an expression, to which there is one reference. -/
def Heap.holding (e : Expression) : Heap :=
  endState ((Heap.newExpression e >>= fun h => Heap.retain (.ref .expression h)) .empty)

/-- A nested evaluation above a value of the caller, and a fault that leaves a number there. -/
theorem evaluation_framed_above_value :
    (∃ m', Machine.evaluate quotedSeven { stack := [.boolean true] } = .ok (.integer 7) m' ∧
      m'.stack = [.boolean true]) ∧
    (∃ moment ∈ History.momentsOf quotedSeven { stack := [.boolean true] }, moment.entries.length = 2 ∧
      [.boolean true] <:+ moment.machine.stack ∧ ∀ entry ∈ moment.entries, entry <:+ moment.machine.stack) ∧
    ∃ m', Machine.evaluate ⟨⟨0⟩, [.loadInteger 7, .loadString 0]⟩ { stack := [.boolean true] } =
        .error (.unknownLiteral 0) m' ∧ m'.stack ≠ [.boolean true] ∧ [.boolean true] <:+ m'.stack := by
  have hyields : (answer? (Machine.evaluate quotedSeven { stack := [.boolean true] })).map Prod.fst =
      some (.integer 7) := by
    decide +kernel
  have hnested : ∃ moment ∈ History.momentsOf quotedSeven { stack := [.boolean true] }, moment.entries.length = 2 := by
    decide +kernel
  obtain ⟨m', hfault, hleft⟩ : ∃ m', Machine.evaluate ⟨⟨0⟩, [.loadInteger 7, .loadString 0]⟩
      { stack := [.boolean true] } = .error (.unknownLiteral 0) m' ∧ m'.stack ≠ [.boolean true] := ⟨_, rfl, by decide⟩
  obtain ⟨hok, -, hmoments, -⟩ := evaluation_framed { stack := [.boolean true] } quotedSeven
  refine ⟨?_, ?_, m', hfault, hleft, ((evaluation_framed _ _).2.1 _ _ hfault).1⟩
  · obtain ⟨⟨v, m'⟩, hanswer, hv : v = .integer 7⟩ := Option.map_eq_some_iff.mp hyields
    have hrun := answer?_eq_some_iff.mp hanswer
    subst hv
    exact ⟨m', hrun, (hok _ m' hrun).1⟩
  · obtain ⟨moment, hmoment, hlength⟩ := hnested
    exact ⟨moment, hmoment, hlength, hmoments moment hmoment⟩

end RefMachine
